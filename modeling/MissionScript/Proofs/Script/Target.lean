import Mathlib.Data.Bool.AllAny
import MissionScript.Proofs.Renaming.Statement
import MissionScript.Proofs.Script.Pieces
import MissionScript.Proofs.Script.Shape

/-!
# Targets of assignments

What stands in front of an assignment sign is the text of an operand. Such a text has no literals, and it
closes every group that it opens, so a sign behind it is read as if nothing stood in front. The word at its
front is the only place where a keyword can be.
-/

namespace MissionScript

/-! ### Quiet texts -/

/-- A character that changes nothing about how the characters behind it are read, the brackets excepted. -/
def isQuietChar (c : Char) : Bool := isWordChar c || isBlank c || "+-.(),".toList.contains c

/-- A text that changes nothing about how what stands behind it is read. -/
structure Quiet (text : Text) : Prop where
  chars : ∀ c ∈ text, isQuietChar c
  level : ∀ depth, text.foldl depthAfter depth = depth

namespace Quiet

variable {left right text : Text}

theorem not_mem (quiet : Quiet text) {c : Char} (loud : isQuietChar c = false) : c ∉ text := by
  intro member
  rw [quiet.chars c member] at loud
  cases loud

theorem append (first : Quiet left) (second : Quiet right) : Quiet (left ++ right) where
  chars := List.forall_mem_append.mpr ⟨first.chars, second.chars⟩
  level depth := by rw [List.foldl_append, first.level, second.level]

theorem of_append (both : Quiet (left ++ right)) (first : Quiet left) : Quiet right where
  chars := (List.forall_mem_append.mp both.chars).2
  level depth := by
    have level := both.level depth
    rwa [List.foldl_append, first.level] at level

theorem of_flat (chars : ∀ c ∈ text, isQuietChar c)
    (flat : ∀ c ∈ text, isOpening c = false ∧ isClosing c = false) : Quiet text where
  chars
  level depth := by
    induction text with
    | nil => rfl
    | cons c text ih =>
        obtain ⟨⟨opens, closes⟩, flat⟩ := List.forall_mem_cons.mp flat
        have same : depthAfter depth c = depth := by simp [depthAfter, opens, closes]
        rw [List.foldl_cons, same, ih (List.forall_mem_cons.mp chars).2 flat]

theorem of_blank (blank : text.isBlankText) : Quiet text := by
  have each := List.all_eq_true.mp blank
  refine of_flat (fun c member => ?_) fun c member => ?_
  · simp [isQuietChar, each c member]
  · exact ⟨isOpening_of_isBlank (each c member), isClosing_of_isBlank (each c member)⟩

/-- Words, numbers and what they are joined with have no groups. -/
theorem of_plain (plain : ∀ c ∈ text, isWordChar c ∨ c ∈ "+-.".toList) : Quiet text := by
  have quiet : ∀ c ∈ "+-.".toList, isQuietChar c ∧ isOpening c = false ∧ isClosing c = false :=
    List.all_iff_forall_prop.mp (by decide)
  refine of_flat (fun c member => ?_) fun c member => ?_
  · rcases plain c member with word | joins
    · simp [isQuietChar, word]
    · exact (quiet c joins).1
  · rcases plain c member with word | joins
    · exact ⟨isOpening_of_isWordChar word, isClosing_of_isWordChar word⟩
    · exact (quiet c joins).2

theorem of_identifier (identifier : text.isIdentifier) : Quiet text :=
  of_plain fun c member => .inl ((isWordChar_of_isIdentifier identifier).2 c member)

theorem group (inside : Quiet text) : Quiet ('(' :: (text ++ ')' :: [])) where
  chars := by
    have brackets : isQuietChar '(' ∧ isQuietChar ')' := by decide
    simpa [brackets, or_imp, forall_and] using inside.chars
  level depth := by
    rw [List.foldl_cons, List.foldl_append, inside.level]
    rfl

/-- Blanks around a text do not matter. -/
theorem of_trim (quiet : Quiet text.trim) : Quiet text := by
  obtain ⟨blanks, blank, behind⟩ := Text.exists_trimEnd text.trimStart
  rw [← List.takeWhile_append_dropWhile (p := isBlank) (l := text)]
  refine (of_blank List.all_takeWhile).append ?_
  rw [show text.dropWhile isBlank = _ from behind]
  exact quiet.append (of_blank blank)

theorem trimStart (quiet : Quiet text) : Quiet text.trimStart := by
  rw [← List.takeWhile_append_dropWhile (p := isBlank) (l := text)] at quiet
  exact quiet.of_append (of_blank List.all_takeWhile)

/-- A quiet text is free, and it stays at its depth. -/
theorem glyphsFrom_append {p : Literal} (closed : p.inside = false) (quiet : '\'' ∉ text) (depth : Nat)
    (more : Text) :
    glyphsFrom p depth (text ++ more) = glyphsFrom p depth text ++
        glyphsFrom (text.foldl Literal.step p) (text.foldl depthAfter depth) more ∧
      ∀ g ∈ glyphsFrom p depth text, g.isFree := by
  induction text generalizing p depth with
  | nil => exact ⟨rfl, List.forall_mem_nil _⟩
  | cons c text ih =>
      obtain ⟨other, quiet⟩ := not_or.mp (mt List.mem_cons.mpr quiet)
      have free : p.covers c = false := by simp [Literal.covers, closed, Ne.symm other]
      have next : (p.step c).inside = false := by simp [Literal.step, free]
      obtain ⟨split, each⟩ := ih next quiet (depthAfter depth c)
      rw [List.cons_append, glyphsFrom, glyphsFrom, free, if_neg Bool.false_ne_true, split]
      exact ⟨rfl, List.forall_mem_cons.mpr ⟨rfl, each⟩⟩

theorem isFree (quiet : Quiet text) : ∀ g ∈ text.glyphs, g.isFree :=
  (glyphsFrom_append rfl (quiet.not_mem (by decide)) 0 []).2

/-- What stands behind a sign is read as if it stood alone. -/
theorem glyphs_sign (quiet : Quiet text) (value : Text) :
    Text.glyphs (text ++ '=' :: value) = text.glyphs ++ ⟨'=', false, 0⟩ :: value.glyphs := by
  have plain : '\'' ∉ text := quiet.not_mem (by decide)
  have closed : (Literal.ofText text).inside = false := Literal.inside_foldl plain
  have free : (Literal.ofText text).covers '=' = false := by simp [Literal.covers, closed]
  have alike : ((Literal.ofText text).step '=').Alike {} := ⟨by simp [Literal.step, free], rfl⟩
  rw [Text.glyphs, (glyphsFrom_append rfl plain 0 _).1, quiet.level]
  change _ ++ glyphsFrom (Literal.ofText text) 0 _ = _
  rw [glyphsFrom, free, glyphsFrom_alike alike]
  rfl

end Quiet

theorem uncommented_of_not_mem {text : Text} (plain : '%' ∉ text) : Uncommented text := by
  have start : Uncommented [] := List.forall_mem_nil _
  exact start.append text plain

/-! ### Texts of operands -/

namespace Decimal

theorem plain_of_readExponent? {tail : Text} {power : Int} (read : readExponent? tail = some power) :
    ∀ c ∈ tail, isWordChar c ∨ c ∈ "+-.".toList := by
  have digits {digits : Text} (all : digits.all Char.isDigit) :
      ∀ c ∈ digits, isWordChar c ∨ c ∈ "+-.".toList := by
    intro c member
    refine .inl ?_
    simp [isWordChar, Char.isAlphanum, List.all_eq_true.mp all c member]
  cases tail with
  | nil => exact List.forall_mem_nil _
  | cons mark text =>
      simp only [readExponent?, Option.ite_none_right_eq_some, Bool.and_eq_true, Bool.or_eq_true,
        beq_iff_eq] at read
      obtain ⟨⟨⟨letter, -⟩, all⟩, -⟩ := read
      refine List.forall_mem_cons.mpr ⟨.inl ?_, ?_⟩
      · rcases letter with rfl | rfl <;> decide
      · split at all
        · exact List.forall_mem_cons.mpr ⟨.inr (by decide), digits all⟩
        · exact List.forall_mem_cons.mpr ⟨.inr (by decide), digits all⟩
        · exact digits all

/-- A decimal has no other characters than its digits, the letter of its exponent, signs and a point. -/
theorem plain_of_readDecimal? {text : Text} {value : Scaled} (read : readDecimal? text = some value) :
    ∀ c ∈ text, isWordChar c ∨ c ∈ "+-.".toList := by
  have digits (text : Text) : ∀ c ∈ text.takeWhile Char.isDigit, isWordChar c ∨ c ∈ "+-.".toList := by
    intro c member
    refine .inl ?_
    simp [isWordChar, Char.isAlphanum, List.all_eq_true.mp List.all_takeWhile c member]
  simp only [readDecimal?, Text.drop_takeWhile] at read
  rw [← List.takeWhile_append_dropWhile (p := Char.isDigit) (l := text)]
  refine List.forall_mem_append.mpr ⟨digits text, ?_⟩
  split at read
  · rename_i rest point
    rw [point]
    refine List.forall_mem_cons.mpr ⟨.inr (by decide), ?_⟩
    split at read
    · cases read
    · obtain ⟨power, exponent, -⟩ := Option.map_eq_some_iff.mp read
      rw [← List.takeWhile_append_dropWhile (p := Char.isDigit) (l := rest)]
      exact List.forall_mem_append.mpr ⟨digits rest, plain_of_readExponent? exponent⟩
  · split at read
    · cases read
    · obtain ⟨power, exponent, -⟩ := Option.map_eq_some_iff.mp read
      exact plain_of_readExponent? exponent

end Decimal

namespace Operand

theorem quiet_of_ofName {text : Text} {o : Operand} (read : ofName text = .ok o) : Quiet text := by
  unfold ofName at read
  split at read
  · rename_i owner field cut
    split at read
    · rename_i names
      rw [Bool.and_eq_true] at names
      rw [(Text.cutAt_eq_some_iff.mp cut).1]
      refine (Quiet.of_identifier names.1).append (.of_plain ?_)
      refine List.forall_mem_cons.mpr ⟨.inr (by decide), fun c member => ?_⟩
      rcases Text.dotted_of_isDottedName names.2 c member with word | rfl
      · exact .inl word
      · exact .inr (by decide)
    · cases read
  · split at read
    · rename_i identifier
      exact .of_identifier identifier
    · cases read

/-- The text of an operand is quiet, with the indices of an element in their group. -/
theorem quiet_of_parse {s : Text} {o : Operand} (parsed : parse s = .ok o) : Quiet s := by
  have bound := Text.length_trim_le s
  have reads := reads_of_parse parsed
  apply Quiet.of_trim
  generalize s.trim = text at bound reads
  cases reads with
  | number first digit read =>
      obtain ⟨scaled, found⟩ := readDecimal?_of_read? first digit read
      exact .of_plain (Decimal.plain_of_readDecimal? found)
  | @element c group index first letter last found ends array single read =>
      have shorter := Bracket.length_content_of_scan found
      have content : Quiet group.content := quiet_of_parse read
      rw [text_of_scan found, ends]
      exact (Quiet.of_identifier array).append content.group
  | @cell c group left right row column first letter last found ends array cut readRow readColumn =>
      have shorter := Bracket.length_content_of_scan found
      obtain ⟨shorterRow, shorterColumn⟩ := Text.length_of_cutAt cut
      have content : Quiet group.content := by
        rw [(Text.cutAt_eq_some_iff.mp cut).1]
        have comma : Quiet [','] :=
          .of_flat (List.forall_mem_singleton.mpr (by decide)) (List.forall_mem_singleton.mpr (by decide))
        exact (quiet_of_parse readRow).append (comma.append (quiet_of_parse readColumn))
      rw [text_of_scan found, ends]
      exact (Quiet.of_identifier array).append content.group
  | name first letter last read => exact quiet_of_ofName read
termination_by s.length

/-! ### The word at the front -/

/-- The word at the front of an operand that is no number. -/
def word : Operand → Text
  | number _ => []
  | var name => name
  | parameter owner _ => owner
  | element array _ => array
  | cell array _ _ => array

/-- The character behind the word. -/
def behind? : Operand → Option Char
  | number _ | var _ => none
  | parameter _ _ => some '.'
  | element _ _ | cell _ _ _ => some '('

/-- The word at the front is read as a keyword when a blank stands behind the operand, and not when an
assignment sign does. Only a variable has the blank behind its word. -/
def isReserved (keywords : Keywords) : Operand → Bool
  | var name => keywords.reserves name
  | _ => false

/-- The word at the front is read as the keyword of a command, whatever stands behind the operand: the name of an
array has its group behind it. -/
def isCommand (keywords : Keywords) : Operand → Bool
  | element array _ | cell array _ _ => keywords.contains array && array != functionKeyword
  | _ => false

variable {text : Text} {o : Operand} {keywords : Keywords}

theorem Reads.exists_behind (reads : Reads text o) (named : o.isNumber = false) :
    o.word.isIdentifier ∧ ∃ rest, text = o.word ++ rest ∧ rest.head? = o.behind? := by
  cases reads with
  | number => cases named
  | element first letter last found ends array single read => exact ⟨array, _, text_of_scan found, rfl⟩
  | cell first letter last found ends array cut readRow readColumn =>
      exact ⟨array, _, text_of_scan found, rfl⟩
  | name first letter last read =>
      unfold ofName at read
      split at read
      · rename_i owner field cut
        split at read
        · rename_i names
          cases read
          rw [Bool.and_eq_true] at names
          exact ⟨names.1, _, (Text.cutAt_eq_some_iff.mp cut).1, rfl⟩
        · cases read
      · split at read
        · rename_i identifier
          cases read
          exact ⟨identifier, [], (List.append_nil _).symm, rfl⟩
        · cases read

/-- The first word of a line that starts with an operand is the word of the operand. -/
theorem Reads.front (reads : Reads text o) (named : o.isNumber = false) {tail : Text}
    (ends : ∀ c ∈ tail.head?, isWordChar c = false) :
    (text ++ tail).takeWhile isWordChar = o.word ∧
      ((text ++ tail).dropWhile isWordChar).head? = o.behind?.or tail.head? := by
  obtain ⟨identifier, rest, rfl, behind⟩ := reads.exists_behind named
  have letters := (isWordChar_of_isIdentifier identifier).2
  have stops : ∀ c ∈ (rest ++ tail).head?, isWordChar c = false := by
    rw [List.head?_append, behind]
    intro c first
    cases kind : o.behind? with
    | none =>
        rw [kind] at first
        exact ends c first
    | some mark =>
        rw [kind] at first
        cases first
        revert kind
        cases o <;> rintro ⟨⟩ <;> decide
  rw [List.append_assoc, List.takeWhile_append_of_pos letters, List.dropWhile_append_of_pos letters,
    Text.dropWhile_eq_self stops, List.head?_append, behind]
  refine ⟨?_, rfl⟩
  cases behind' : rest ++ tail with
  | nil => exact List.append_nil _
  | cons c more =>
      rw [behind'] at stops
      rw [List.takeWhile_cons_of_neg (Bool.eq_false_iff.mp (stops c rfl)), List.append_nil]

end Operand

end MissionScript
