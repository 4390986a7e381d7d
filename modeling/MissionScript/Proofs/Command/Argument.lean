import MissionScript.Proofs.Command.Condition
import MissionScript.Proofs.Script.Runs

/-!
# Texts of single arguments

A comma separates arguments unless it stands inside a group. No operand and no expression has one outside: in
an operand commas stand between the indices of an element, and of the tokens of an expression only names with
their groups hold any. So a text that is read as either is one argument, and so is a relation between two.
-/

namespace MissionScript

/-! ### Texts without a comma outside groups -/

/-- The commas stand inside groups. -/
def Unbroken (gs : List Glyph) : Prop := ∀ g ∈ gs, g.isTop → g.char ≠ ','

/-- The text of one argument: it closes what it opens, and its commas stand inside its groups. -/
structure Text.IsArgument (text : Text) : Prop extends text.IsEven where
  filled : ¬text.isBlankText
  unbroken : Unbroken text.glyphs

namespace Unbroken

variable {gs : List Glyph}

theorem of_chars (plain : ∀ g ∈ gs, g.char ≠ ',') : Unbroken gs := fun g member _ => plain g member

theorem append {left right : List Glyph} (first : Unbroken left) (second : Unbroken right) :
    Unbroken (left ++ right) :=
  List.forall_mem_append.mpr ⟨first, second⟩

theorem of_text {text : Text} (plain : ',' ∉ text) : Unbroken text.glyphs := by
  apply of_chars
  rintro g member same
  exact plain (same ▸ char_mem_of_mem_glyphsFrom member)

theorem of_trim {text : Text} (trimmed : Unbroken text.trim.glyphs) : Unbroken text.glyphs := by
  obtain ⟨front, back, blankFront, blankBack, split⟩ := exists_glyphs_trim text
  have blanks {gs : List Glyph} (blank : ∀ g ∈ gs, isBlank g.char) : Unbroken gs :=
    of_chars fun g member => ne_of_isBlank (blank g member) (by decide)
  rw [split]
  exact ((blanks blankFront).append trimmed).append (blanks blankBack)

end Unbroken

theorem Text.not_comma_mem_of_isIdentifier {name : Text} (identifier : name.isIdentifier) : ',' ∉ name :=
  fun member => absurd ((isWordChar_of_isIdentifier identifier).2 _ member) (by decide)

theorem Operand.unbroken_of_parse {text : Text} {o : Operand} (read : Operand.parse text = .ok o) :
    Unbroken text.glyphs := by
  have balanced : checkBalance text.trim = .ok () := by
    rw [checkBalance_eq_ok_iff, Text.marks_trim]
    exact checkBalance_eq_ok_iff.mp (Arithmetic.of_quiet (quiet_of_parse read)).isEven.isComplete.balanced
  -- The group of an element ends the text, so what stands outside it is the name of the array.
  have element {group : Group} (found : Bracket.paren.scan text.trim 0 = .matched group)
      (ends : group.after = []) (array : (Text.ofGlyphs group.before).isIdentifier) :
      Unbroken text.trim.glyphs := by
    intro g member top same
    rcases isTop_of_scan balanced found g member top with front | behind
    · exact Text.not_comma_mem_of_isIdentifier array (same ▸ List.mem_map_of_mem front)
    · rw [ends] at behind
      exact absurd behind List.not_mem_nil
  have reads := reads_of_parse read
  clear read
  apply Unbroken.of_trim
  cases reads with
  | number first digit read =>
      obtain ⟨scaled, found⟩ := readDecimal?_of_read? first digit read
      refine .of_text fun member => ?_
      exact absurd (Decimal.plain_of_readDecimal? found _ member) (by decide)
  | element first letter last found ends array single read => exact element found ends array
  | cell first letter last found ends array cut readRow readColumn => exact element found ends array
  | name first letter last read =>
      refine .of_text fun member => ?_
      unfold ofName at read
      split at read
      · rename_i owner field cut
        split at read
        · rename_i names
          rw [Bool.and_eq_true] at names
          rw [(Text.cutAt_eq_some_iff.mp cut).1, List.mem_append, List.mem_cons] at member
          rcases member with inOwner | same | inField
          · exact Text.not_comma_mem_of_isIdentifier names.1 inOwner
          · exact absurd same (by decide)
          · exact absurd (Text.dotted_of_isDottedName names.2 _ inField) (by decide)
        · cases read
      · split at read
        · rename_i identifier
          exact Text.not_comma_mem_of_isIdentifier identifier member
        · cases read

theorem ne_comma_of_mem_number {c : Char} {gs : List Glyph} :
    ∀ g ∈ gs.take (numberLength c gs), g.char ≠ ',' := by
  induction gs generalizing c with
  | nil => exact List.forall_mem_nil _
  | cons g gs ih =>
      rw [numberLength]
      split
      · rename_i within
        rw [List.take_succ_cons]
        refine List.forall_mem_cons.mpr ⟨fun same => ?_, ih⟩
        simp [same, show Char.isAlphanum ',' = false from rfl] at within
      · exact List.forall_mem_nil _

theorem ne_comma_of_starts {c : Char} (starts : startsNumber c ∨ startsName c) : c ≠ ',' := by
  rintro rfl
  revert starts
  decide

theorem ne_comma_of_mem_name {gs : List Glyph} :
    ∀ g ∈ gs.takeWhile fun g => isNameChar g.char, g.char ≠ ',' := by
  intro g member same
  have name : isNameChar g.char := List.mem_takeWhile_imp (p := fun g : Glyph => isNameChar g.char) member
  rw [same] at name
  cases name

/-- A name and what is behind it. -/
theorem cut_behind_name (g : Glyph) {rest after : List Glyph}
    (within : rest.dropWhile (fun g => isNameChar g.char) = after) (free : ∀ h ∈ g :: rest, h.isFree) :
    g :: rest = (g :: rest.takeWhile fun g => isNameChar g.char) ++ after ∧ ∀ h ∈ after, h.isFree := by
  subst within
  rw [List.cons_append, List.takeWhile_append_dropWhile]
  exact ⟨rfl, fun h member => free h (List.mem_cons_of_mem _ ((List.dropWhile_suffix _).subset member))⟩

/-- What follows characters without commas goes on in its own groups. -/
theorem Nested.unbroken_of_append {opened : List Bracket} {gs behind : List Glyph}
    (nested : Nested opened gs) (front : List Glyph) (whole : gs = front ++ behind)
    (plain : ∀ g ∈ front, g.char ≠ ',') (further : ∀ others, Nested others behind → Unbroken behind) :
    Unbroken gs := by
  subst whole
  obtain ⟨others, following⟩ := nested.exists_of_append
  exact (Unbroken.of_chars plain).append (further others following)

/-- No token starts with a comma, and the only tokens that hold one are names with their groups. -/
theorem unbroken_of_tokensFrom {whole : Text} {previous : Option Char} {gs : List Glyph} {tokens : List Token}
    {opened : List Bracket} (cut : tokensFrom whole previous gs = .ok tokens) (free : ∀ g ∈ gs, g.isFree)
    (nested : Nested opened gs) : Unbroken gs := by
  fun_induction tokensFrom whole previous gs generalizing opened tokens with
  | case1 => exact List.forall_mem_nil _
  | case2 => cases cut
  | case3 previous g rest c _ blank =>
      rename_i ih
      obtain ⟨-, others⟩ := List.forall_mem_cons.mp free
      refine nested.unbroken_of_append [g] rfl ?_ fun _ following => ih cut others following
      exact List.forall_mem_singleton.mpr (ne_of_isBlank blank (by decide))
  | case4 previous g rest c _ _ token made =>
      rename_i ih
      obtain ⟨_, further, -⟩ := Outcome.map_eq_ok_iff.mp cut
      obtain ⟨-, others⟩ := List.forall_mem_cons.mp free
      refine nested.unbroken_of_append [g] rfl ?_ fun _ following => ih further others following
      refine List.forall_mem_singleton.mpr fun same => ?_
      rw [show c = ',' from same] at made
      cases made
  | case5 previous g rest c _ _ digit length =>
      rename_i ih
      obtain ⟨_, further, -⟩ := Outcome.map_eq_ok_iff.mp cut
      obtain ⟨-, others⟩ := List.forall_mem_cons.mp free
      have dropped : ∀ h ∈ rest.drop length, h.isFree := fun h member => others h (List.mem_of_mem_drop member)
      refine nested.unbroken_of_append (g :: rest.take length) ?_ ?_
        fun _ following => ih further dropped following
      · rw [List.cons_append, List.take_append_drop]
      · exact List.forall_mem_cons.mpr ⟨ne_comma_of_starts (.inl digit), ne_comma_of_mem_number⟩
  | case6 previous g rest c _ _ _ letter name =>
      rename_i nothing _
      obtain ⟨whole, -⟩ := cut_behind_name g nothing free
      rw [whole, List.append_nil]
      exact .of_chars (List.forall_mem_cons.mpr ⟨ne_comma_of_starts (.inr letter), ne_comma_of_mem_name⟩)
  | case7 => cases cut
  | case8 previous g rest c _ _ _ letter name next after within opens inside behind found =>
      rename_i ih
      obtain ⟨_, further, -⟩ := Outcome.map_eq_ok_iff.mp cut
      obtain ⟨whole, others⟩ := cut_behind_name g within free
      obtain ⟨here, others⟩ := List.forall_mem_cons.mp others
      refine nested.unbroken_of_append _ whole
        (List.forall_mem_cons.mpr ⟨ne_comma_of_starts (.inr letter), ne_comma_of_mem_name⟩)
        fun around goesOn => ?_
      -- The commas of the group are deeper than the name is.
      have opening : next.opens .paren := Bool.and_eq_true_iff.mpr ⟨here, opens⟩
      obtain ⟨close, closes⟩ := goesOn.closes_of_splitClosing opening found
      obtain rfl := closes.glyphs_eq
      have group := closes.not_isTop opening
      obtain ⟨-, others⟩ := List.forall_mem_append.mp others
      obtain ⟨-, others⟩ := List.forall_mem_cons.mp others
      rw [List.append_cons, ← List.cons_append]
      exact Unbroken.append (fun g member top => absurd top (group g member)) (ih further others closes.behind)
  | case9 previous g rest c _ _ _ letter name next after within _ =>
      rename_i ih
      obtain ⟨_, further, -⟩ := Outcome.map_eq_ok_iff.mp cut
      obtain ⟨whole, others⟩ := cut_behind_name g within free
      exact nested.unbroken_of_append _ whole
        (List.forall_mem_cons.mpr ⟨ne_comma_of_starts (.inr letter), ne_comma_of_mem_name⟩)
        fun _ goesOn => ih further others goesOn
  | case10 => cases cut

theorem Text.IsEven.isFree {text : Text} (even : text.IsEven) : ∀ g ∈ text.glyphs, g.isFree :=
  (Quiet.glyphsFrom_append rfl even.unquoted 0 []).2

theorem Expression.unbroken_of_parse {text : Text} {e : Expression} (read : Expression.parse text = .ok e) :
    Unbroken text.glyphs := by
  have even := (Expression.arithmetic_of_parse read).isEven
  have nested := nested_of_checkBalance even.isComplete.balanced
  cases Expression.reads_of_parse read with
  | whole cut _ => exact unbroken_of_tokensFrom cut even.isFree nested

namespace Text.IsArgument

variable {text left symbol right : Text}

theorem of_operand {o : Operand} (read : Operand.parse text = .ok o) : IsArgument text where
  toIsEven := (Arithmetic.of_quiet (Operand.quiet_of_parse read)).isEven
  filled := by
    intro blank
    rw [Operand.parse] at read
    simp only [Text.trim_eq_nil_iff.mpr blank] at read
    cases read
  unbroken := Operand.unbroken_of_parse read

theorem of_expression {e : Expression} (read : Expression.parse text = .ok e) : IsArgument text where
  toIsEven := (Expression.arithmetic_of_parse read).isEven
  filled := Expression.not_isBlankText_of_parse read
  unbroken := Expression.unbroken_of_parse read

theorem append_symbol (first : IsArgument left) (isSymbol : symbol.IsSymbol) (plain : ',' ∉ symbol)
    (second : IsArgument right) : IsArgument (left ++ (symbol ++ right)) where
  toIsEven := first.toIsEven.append_symbol isSymbol second.toIsEven
  filled := by
    rw [Text.isBlankText_append, Bool.and_eq_true]
    exact fun blank => first.filled blank.1
  unbroken := by
    have flat := IsEven.of_isFlat isSymbol.flat
    rw [first.glyphs_append (flat.append second.toIsEven).unquoted, flat.glyphs_append second.unquoted]
    exact first.unbroken.append ((Unbroken.of_text plain).append second.unbroken)

end Text.IsArgument

end MissionScript
