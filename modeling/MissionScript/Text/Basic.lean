import MissionScript.Text.Blank

/-!
# Script text

A piece of a script, from one word to a whole source file, is a list of characters. Offsets into a
text are counted in UTF-8 bytes, so every offset is the byte length of some leading part: a cut is
made by splitting the list, and the offset is measured afterwards.
-/

namespace MissionScript

/-- A piece of a script. -/
abbrev Text := List Char

namespace Text

/-- The text as a string, for messages and output. -/
def str (text : Text) : String := String.ofList text

/-- The text of a string. -/
def ofString (s : String) : Text := s.toList

/-- The text between double quotes, as messages show it. -/
def quoted (text : Text) : String := "\"" ++ text.str ++ "\""

/-- Length in UTF-8 bytes, the unit of every offset and span. -/
def bytes : Text → Nat
  | [] => 0
  | c :: text => c.utf8Size + bytes text

@[simp] theorem bytes_nil : bytes [] = 0 := rfl

@[simp] theorem bytes_cons (c : Char) (text : Text) :
    bytes (c :: text) = c.utf8Size + bytes text := rfl

@[simp] theorem bytes_append (left right : Text) :
    bytes (left ++ right) = bytes left + bytes right := by
  induction left with
  | nil => simp
  | cons c left ih =>
    rw [List.cons_append, bytes_cons, bytes_cons, ih]
    omega

/-- Whether nothing but blank characters is left. -/
def isBlankText (text : Text) : Bool := text.all isBlank

/-- Drop the blank characters at the start. -/
def trimStart (text : Text) : Text := text.dropWhile isBlank

/-- Drop the characters at the end that satisfy `p`. -/
def dropEndWhile (p : Char → Bool) (text : Text) : Text := (text.reverse.dropWhile p).reverse

/-- Drop the blank characters at the end. -/
def trimEnd (text : Text) : Text := dropEndWhile isBlank text

/-- Drop the blank characters at both ends. -/
def trim (text : Text) : Text := trimEnd (trimStart text)

/-- Drop every leading and trailing `c`. -/
def trimChar (c : Char) (text : Text) : Text :=
  dropEndWhile (· == c) (text.dropWhile (· == c))

theorem length_dropEndWhile_le (p : Char → Bool) (text : Text) :
    (dropEndWhile p text).length ≤ text.length := by
  simpa [dropEndWhile] using (List.dropWhile_sublist p (l := text.reverse)).length_le

theorem length_trim_le (text : Text) : (trim text).length ≤ text.length :=
  Nat.le_trans (length_dropEndWhile_le isBlank _) (List.dropWhile_sublist isBlank).length_le

/-- What follows `lead` at the start of the text. -/
def after? : Text → Text → Option Text
  | [], text => some text
  | _ :: _, [] => none
  | l :: lead, c :: text => if l == c then after? lead text else none

/-- What stands before `tail` at the end of the text. -/
def before? (tail text : Text) : Option Text :=
  (after? tail.reverse text.reverse).map List.reverse

/-- Whether `piece` occurs in the text. -/
def occursIn (piece : Text) : Text → Bool
  | [] => piece.isEmpty
  | c :: text => piece.isPrefixOf (c :: text) || occursIn piece text

/-- The parts before and after the first `separator`. -/
def cutAt (separator : Char) : Text → Option (Text × Text)
  | [] => none
  | c :: text =>
    if c == separator then some ([], text)
    else (cutAt separator text).map fun (left, right) => (c :: left, right)

theorem length_of_cutAt {separator : Char} {text left right : Text}
    (found : cutAt separator text = some (left, right)) :
    left.length < text.length ∧ right.length < text.length := by
  induction text generalizing left right with
  | nil => simp [cutAt] at found
  | cons c text ih =>
    by_cases same : c == separator
    · simp only [cutAt, same, if_true, Option.some.injEq, Prod.mk.injEq] at found
      obtain ⟨rfl, rfl⟩ := found
      simp
    · simp only [cutAt, same, Bool.false_eq_true, if_false, Option.map_eq_some_iff,
        Prod.exists, Prod.mk.injEq] at found
      obtain ⟨left', right', inner, rfl, rfl⟩ := found
      have := ih inner
      simp only [List.length_cons]
      omega

/-- Cut the text into lines, each with its line feed; no line is empty. -/
def lines : Text → List Text
  | [] => []
  | c :: text =>
    if c == '\n' then [c] :: lines text
    else match lines text with
      | [] => [[c]]
      | line :: rest => (c :: line) :: rest

/-- The decimal digits of a number. -/
def ofNat (n : Nat) : Text := Nat.toDigits 10 n

/-- Pieces put together with `separator` between neighbours. -/
def join (separator : String) (pieces : List String) : String := separator.intercalate pieces

end Text

end MissionScript
