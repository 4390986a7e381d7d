import MissionScript.Proofs.Step
import MissionScript.Proofs.Renaming.Operand

/-!
# Cutting expressions into tokens

One equation for every way in which a token can start.
-/

namespace MissionScript

/-- A name starts with such a character. -/
def startsName (c : Char) : Bool := c.isAlpha || c == '_'

section Characters

variable {c : Char}

theorem isWordChar_of_startsName (starts : startsName c) : isWordChar c = true := by
  simp only [startsName, Bool.or_eq_true] at starts
  simp only [isWordChar, Char.isAlphanum, Bool.or_eq_true]
  rcases starts with alpha | underscore
  · exact .inl (.inl alpha)
  · exact .inr underscore

theorem startsName_of_isIdentifier {name : Text} (identifier : Text.isIdentifier (c :: name)) :
    startsName c := by
  simp only [Text.isIdentifier, Bool.and_eq_true] at identifier
  exact identifier.1

/-- A character of a word starts a number or a name. -/
theorem startsNumber_or_startsName (word : isWordChar c) : startsNumber c ∨ startsName c := by
  simp only [isWordChar, Char.isAlphanum, Bool.or_eq_true] at word
  simp only [startsNumber, startsName, Bool.or_eq_true]
  rcases word with (alpha | digit) | underscore
  · exact .inr (.inl alpha)
  · exact .inl (.inl digit)
  · exact .inr (.inr underscore)

theorem startsNumber_of_startsName (starts : startsName c) : startsNumber c = false := by
  have identifier : Text.isIdentifier [c] := by
    simp only [Text.isIdentifier, List.all_nil, Bool.and_true]
    exact starts
  exact startsNumber_of_isIdentifier identifier

theorem quote_of_isNameChar (named : isNameChar c) : (c == '\'') = false := by
  rw [beq_eq_false_iff_ne]
  rintro rfl
  cases named

theorem isBlank_of_isNameChar (named : isNameChar c) : isBlank c = false := by
  simp only [isNameChar, Bool.or_eq_true, beq_iff_eq] at named
  rcases named with word | rfl
  · exact isBlank_of_isWordChar word
  · decide

theorem isNameChar_of_isBlank (blank : isBlank c) : isNameChar c = false := by
  rw [Bool.eq_false_iff]
  intro named
  rw [isBlank_of_isNameChar named] at blank
  cases blank

theorem ofChar?_of_isNameChar (named : isNameChar c) : Token.ofChar? c = none := by
  unfold Token.ofChar?
  split
  all_goals first | rfl | cases named

theorem isNameChar_of_startsNumber (starts : startsNumber c) : isNameChar c = true := by
  simp only [startsNumber, Bool.or_eq_true, beq_iff_eq] at starts
  rcases starts with digit | rfl
  · exact isNameChar_of_isDigit digit
  · rfl

theorem isNameChar_paren : isNameChar '(' = false := rfl

theorem isNameChar_of_startsName (starts : startsName c) : isNameChar c = true := by
  simp [isNameChar, isWordChar_of_startsName starts]

end Characters

section Equations

variable {whole : Text} {previous : Option Char} {g next : Glyph} {rest fields after more : List Glyph}

theorem tokensFrom_blank (blank : isBlank g.char) :
    tokensFrom whole previous (g :: rest) = tokensFrom whole (some g.char) rest := by
  have quote : (g.char == '\'') = false := beq_eq_false_iff_ne.mpr (ne_of_isBlank blank (by decide))
  rw [tokensFrom]
  simp only [quote, blank, Bool.false_and, Bool.false_eq_true, if_false, if_true]

theorem tokensFrom_char {token : Token} (made : Token.ofChar? g.char = some token) :
    tokensFrom whole previous (g :: rest) =
      (tokensFrom whole (some g.char) rest).map (token :: ·) := by
  have plain : (g.char == '\'') = false ∧ isBlank g.char = false := by
    unfold Token.ofChar? at made
    split at made
    case h_8 => cases made
    all_goals
      rename_i same
      rw [same]
      decide
  rw [tokensFrom]
  simp only [plain, Bool.false_and, Bool.false_eq_true, if_false, made]

theorem tokensFrom_number (starts : startsNumber g.char) :
    tokensFrom whole previous (g :: rest) =
      (tokensFrom whole (some g.char) (rest.drop (numberLength g.char rest))).map
        (.operand (g.char :: Text.ofGlyphs (rest.take (numberLength g.char rest))) :: ·) := by
  have named := isNameChar_of_startsNumber starts
  rw [startsNumber] at starts
  rw [tokensFrom]
  simp only [quote_of_isNameChar named, isBlank_of_isNameChar named, ofChar?_of_isNameChar named,
    Bool.false_and, Bool.false_eq_true, if_false, starts, if_true]

/-- No token starts with any other character. -/
theorem tokensFrom_other (filled : isBlank g.char = false) (made : Token.ofChar? g.char = none)
    (number : startsNumber g.char = false) (name : startsName g.char = false) :
    ∃ error, tokensFrom whole previous (g :: rest) = .error error := by
  rw [startsNumber] at number
  rw [startsName] at name
  rw [tokensFrom]
  simp only [filled, made, number, name, Bool.false_eq_true, if_false]
  split
  · exact ⟨_, rfl⟩
  · exact ⟨_, rfl⟩

/-- The name at the start of the glyphs and what follows it. -/
theorem cut_name (after : List Glyph) (named : ∀ h ∈ fields, isNameChar h.char)
    (ends : ∀ h ∈ after.head?, isNameChar h.char = false) :
    (fields ++ after).takeWhile (fun h => isNameChar h.char) = fields ∧
      (fields ++ after).dropWhile (fun h => isNameChar h.char) = after := by
  have nothing : after.takeWhile (fun h => isNameChar h.char) = [] ∧
      after.dropWhile (fun h => isNameChar h.char) = after := by
    cases after with
    | nil => exact ⟨rfl, rfl⟩
    | cons h more =>
        have other := ends h rfl
        simp [other]
  rw [List.takeWhile_append_of_pos named, List.dropWhile_append_of_pos named, nothing.1, nothing.2,
    List.append_nil]
  exact ⟨rfl, rfl⟩

/-- A name, whatever follows it: nothing, its group, or the next token. -/
theorem tokensFrom_named (starts : startsName g.char) (named : ∀ h ∈ fields, isNameChar h.char)
    (ends : ∀ h ∈ after.head?, isNameChar h.char = false) :
    tokensFrom whole previous (g :: (fields ++ after)) =
      match after with
      | [] => .ok [.operand (g.char :: Text.ofGlyphs fields)]
      | next :: more =>
        if next.char == '(' then
          match Bracket.paren.splitClosing 0 more with
          | none => .error (.unmatchedParenthesis whole)
          | some (inside, behind) =>
            (tokensFrom whole (some g.char) behind).map
              (groupToken (g.char :: Text.ofGlyphs fields) (Text.ofGlyphs inside) :: ·)
        else
          (tokensFrom whole (some g.char) (next :: more)).map
            (.operand (g.char :: Text.ofGlyphs fields) :: ·) := by
  have name := isNameChar_of_startsName starts
  have number := startsNumber_of_startsName starts
  have ⟨taken, dropped⟩ := cut_name after named ends
  rw [startsName] at starts
  rw [startsNumber] at number
  rw [tokensFrom]
  simp only [quote_of_isNameChar name, isBlank_of_isNameChar name, ofChar?_of_isNameChar name,
    Bool.false_and, Bool.false_eq_true, if_false, number, starts, if_true, taken]
  -- The reader keeps the equations of its splits for its termination.
  split
  · rename_i nothing
    rw [dropped] at nothing
    subst nothing
    rfl
  · rename_i something
    rw [dropped] at something
    subst something
    dsimp only
    split
    · split <;> (rename_i found; rw [found])
    · rfl

theorem tokensFrom_end (starts : startsName g.char) (named : ∀ h ∈ fields, isNameChar h.char) :
    tokensFrom whole previous (g :: fields) = .ok [.operand (g.char :: Text.ofGlyphs fields)] := by
  rw [← List.append_nil fields, tokensFrom_named starts named (by simp), List.append_nil]

theorem tokensFrom_name (starts : startsName g.char) (named : ∀ h ∈ fields, isNameChar h.char)
    (ends : isNameChar next.char = false) (plain : next.char ≠ '(') :
    tokensFrom whole previous (g :: (fields ++ next :: more)) =
      (tokensFrom whole (some g.char) (next :: more)).map
        (.operand (g.char :: Text.ofGlyphs fields) :: ·) := by
  rw [tokensFrom_named starts named (by simpa using ends)]
  dsimp only
  rw [if_neg (by simpa using plain)]

theorem tokensFrom_group {inside behind : List Glyph} (starts : startsName g.char)
    (named : ∀ h ∈ fields, isNameChar h.char) (opens : next.char = '(')
    (closes : Bracket.paren.splitClosing 0 more = some (inside, behind)) :
    tokensFrom whole previous (g :: (fields ++ next :: more)) =
      (tokensFrom whole (some g.char) behind).map
        (groupToken (g.char :: Text.ofGlyphs fields) (Text.ofGlyphs inside) :: ·) := by
  rw [tokensFrom_named starts named (by simp [opens, isNameChar_paren])]
  dsimp only
  rw [if_pos (by simpa using opens), closes]

theorem tokensFrom_unclosed (starts : startsName g.char) (named : ∀ h ∈ fields, isNameChar h.char)
    (opens : next.char = '(') (unclosed : Bracket.paren.splitClosing 0 more = none) :
    tokensFrom whole previous (g :: (fields ++ next :: more)) =
      .error (.unmatchedParenthesis whole) := by
  rw [tokensFrom_named starts named (by simp [opens, isNameChar_paren])]
  dsimp only
  rw [if_pos (by simpa using opens), unclosed]

end Equations

end MissionScript
