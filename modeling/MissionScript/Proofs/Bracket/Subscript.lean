import MissionScript.Bracket.Subscript
import MissionScript.Proofs.Bracket.Nested
import MissionScript.Proofs.Bracket.Outermost
import MissionScript.Proofs.Renaming.Word

/-!
# What a subscript is

A subscript is a name with one or two indices in brackets, or the brackets alone. Neither the name nor an
index has room for a quote or a bracket, so the first bracket of a subscript is the one that opens its group,
and the group ends with the last character.
-/

namespace MissionScript

/-! ### The grammar -/

namespace Text

/-- One or more identifiers, with dots between them. -/
def IsDotted (name : Text) : Prop :=
  ∃ words : List Text, words ≠ [] ∧ (∀ word ∈ words, word.isIdentifier) ∧ name = ['.'].intercalate words

/-- An identifier or some digits, with `single` one character only. -/
structure IsIndexWord (single : Bool) (index : Text) : Prop where
  word : index.isIdentifier ∨ index ≠ [] ∧ ∀ c ∈ index, c.isDigit
  short : single → index.length = 1

/-- One index or two, with a comma between them and blanks around them. -/
def IsIndices (single : Bool) (inside : Text) : Prop :=
  ∃ indices : List Text, (indices.length = 1 ∨ indices.length = 2) ∧
    (∀ index ∈ indices, IsIndexWord single (trim index)) ∧ inside = [','].intercalate indices

/-- A dotted name, which may be missing, and indices in the brackets of one of the families. -/
def IsSubscript (families : List Bracket) (single : Bool) (text : Text) : Prop :=
  ∃ name inside : Text, ∃ b ∈ families, (name = [] ∨ name.IsDotted) ∧ inside.IsIndices single ∧
    text = name ++ b.opening :: (inside ++ [b.closing])

end Text

/-! ### Texts without quotes and brackets -/

/-- The glyphs of a text of which nothing belongs to a literal, read on with `depth` groups open. -/
def unquotedFrom : (depth : Nat) → Text → List Glyph
  | _, [] => []
  | depth, c :: text => ⟨c, false, depth⟩ :: unquotedFrom (depthAfter depth c) text

theorem unquotedFrom_append (depth : Nat) (left right : Text) :
    unquotedFrom depth (left ++ right) =
      unquotedFrom depth left ++ unquotedFrom (left.foldl depthAfter depth) right := by
  induction left generalizing depth with
  | nil => rfl
  | cons c left ih => exact congrArg (_ :: ·) (ih _)

theorem ofGlyphs_unquotedFrom (depth : Nat) (text : Text) :
    Text.ofGlyphs (unquotedFrom depth text) = text := by
  induction text generalizing depth with
  | nil => rfl
  | cons c text ih => exact congrArg (c :: ·) (ih _)

theorem glyphsFrom_eq_unquotedFrom {p : Literal} (outside : p.inside = false) (depth : Nat) {text : Text}
    (unquoted : '\'' ∉ text) : glyphsFrom p depth text = unquotedFrom depth text := by
  induction text generalizing p depth with
  | nil => rfl
  | cons c text ih =>
      simp only [List.mem_cons, not_or] at unquoted
      have free : p.covers c = false := by simp [Literal.covers, outside, Ne.symm unquoted.1]
      have next : (p.step c).inside = false := by simp [Literal.step, free]
      simp only [glyphsFrom, unquotedFrom, free, Bool.false_eq_true, if_false, ih next _ unquoted.2]

theorem glyphs_eq_unquotedFrom {text : Text} (unquoted : '\'' ∉ text) :
    text.glyphs = unquotedFrom 0 text :=
  glyphsFrom_eq_unquotedFrom rfl 0 unquoted

/-- A character that is neither a quote nor a bracket. -/
def isFlat (c : Char) : Bool := c != '\'' && (Mark.ofChar? c).isNone

/-- A text without quotes and brackets. -/
def Text.IsFlat (text : Text) : Prop := ∀ c ∈ text, isFlat c

/-- Words, blanks and what stands between words and between indices are flat. -/
theorem isFlat_of_plain {c : Char} (plain : isWordChar c || isBlank c || c == '.' || c == ',') :
    isFlat c := by
  have quote : c ≠ '\'' := by
    intro same
    subst same
    revert plain
    decide
  have bracket : Mark.ofChar? c = none := by
    apply Option.eq_none_iff_forall_ne_some.mpr
    intro m mark
    have same := Mark.ofChar?_eq_some_iff.mp mark
    subst same
    cases m with
    | opening b => cases b <;> revert plain <;> decide
    | closing b => cases b <;> revert plain <;> decide
  simp [isFlat, quote, bracket]

theorem depthAfter_of_isFlat {c : Char} (flat : isFlat c) (depth : Nat) : depthAfter depth c = depth := by
  simp only [isFlat, Bool.and_eq_true, Option.isNone_iff_eq_none] at flat
  have step := depth_step ⟨c, false, depth⟩ depth
  simpa [Glyph.mark?, flat.2] using step

theorem Text.forall_mem_intercalate {p : Char → Prop} {separator : Char} (between : p separator)
    {pieces : List Text} (each : ∀ piece ∈ pieces, ∀ c ∈ piece, p c) :
    ∀ c ∈ [separator].intercalate pieces, p c := by
  induction pieces with
  | nil => exact List.forall_mem_nil _
  | cons piece pieces ih =>
      obtain ⟨first, others⟩ := List.forall_mem_cons.mp each
      cases pieces with
      | nil => simpa using first
      | cons next pieces =>
          rw [List.intercalate_cons_cons, List.append_assoc, List.singleton_append]
          exact List.forall_mem_append.mpr ⟨first, List.forall_mem_cons.mpr ⟨between, ih others⟩⟩

/-- Nothing but blanks is trimmed off a text. -/
theorem Text.mem_trim_or_isBlank {text : Text} {c : Char} (member : c ∈ text) :
    c ∈ text.trim ∨ isBlank c := by
  obtain ⟨blanks, blank, behind⟩ := exists_trimEnd text.trimStart
  rw [← List.takeWhile_append_dropWhile (p := isBlank) (l := text),
    show text.dropWhile isBlank = text.trim ++ blanks from behind, List.mem_append, List.mem_append] at member
  rcases member with front | within | back
  · exact .inr (List.mem_takeWhile_imp front)
  · exact .inl within
  · exact .inr (List.all_eq_true.mp blank c back)

namespace Text.IsFlat

variable {left right text : Text}

theorem append (first : IsFlat left) (second : IsFlat right) : IsFlat (left ++ right) :=
  List.forall_mem_append.mpr ⟨first, second⟩

theorem of_isBlankText (blank : text.isBlankText) : IsFlat text := by
  intro c member
  apply isFlat_of_plain
  simp [List.all_eq_true.mp blank c member]

theorem not_mem (flat : IsFlat text) {c : Char} (other : isFlat c = false) : c ∉ text := by
  intro member
  rw [flat c member] at other
  cases other

theorem unquoted (flat : IsFlat text) : '\'' ∉ text := flat.not_mem (by decide)

theorem level (flat : IsFlat text) (depth : Nat) : text.foldl depthAfter depth = depth := by
  induction text with
  | nil => rfl
  | cons c text ih =>
      obtain ⟨first, others⟩ := List.forall_mem_cons.mp flat
      rw [List.foldl_cons, depthAfter_of_isFlat first, ih others]

theorem unquotedFrom_eq (flat : IsFlat text) (depth : Nat) :
    unquotedFrom depth text = text.map fun c => ⟨c, false, depth⟩ := by
  induction text with
  | nil => rfl
  | cons c text ih =>
      obtain ⟨first, others⟩ := List.forall_mem_cons.mp flat
      rw [unquotedFrom, depthAfter_of_isFlat first, ih others]
      rfl

theorem mark?_eq_none (flat : IsFlat text) (depth : Nat) :
    ∀ g ∈ unquotedFrom depth text, g.mark? = none := by
  intro g member
  rw [flat.unquotedFrom_eq] at member
  obtain ⟨c, among, rfl⟩ := List.mem_map.mp member
  have free := flat c among
  simp only [isFlat, Bool.and_eq_true, Option.isNone_iff_eq_none] at free
  exact free.2

theorem marksOf_eq_nil (flat : IsFlat text) (depth : Nat) : marksOf (unquotedFrom depth text) = [] :=
  List.filterMap_eq_nil_iff.mpr (flat.mark?_eq_none depth)

end Text.IsFlat

/-! ### Parts of a subscript -/

theorem isDottedName_iff {name : Text} : name.isDottedName ↔ name.IsDotted := by
  constructor
  · intro dotted
    refine ⟨name.splitOn '.', List.splitOn_ne_nil '.' name, List.all_eq_true.mp dotted, ?_⟩
    exact (List.intercalate_splitOn '.').symm
  · intro ⟨words, filled, identifiers, whole⟩
    have undotted : ∀ word ∈ words, '.' ∉ word := by
      intro word among member
      have letter := (isWordChar_of_isIdentifier (identifiers word among)).2 '.' member
      revert letter
      decide
    rw [Text.isDottedName, whole, List.splitOn_intercalate '.' undotted filled]
    exact List.all_eq_true.mpr identifiers

theorem isIndex_iff {single : Bool} {index : Text} : isIndex single index ↔ index.IsIndexWord single := by
  have digits : index.isInteger = true ↔ index ≠ [] ∧ ∀ c ∈ index, c.isDigit := by
    simp [Text.isInteger]
  constructor
  · intro accepted
    simp only [isIndex, Bool.and_eq_true, Bool.or_eq_true, digits, Bool.not_eq_true', beq_iff_eq] at accepted
    refine ⟨accepted.1.symm, ?_⟩
    intro short
    subst short
    simpa using accepted.2
  · intro word
    simp only [isIndex, Bool.and_eq_true, Bool.or_eq_true, digits, Bool.not_eq_true', beq_iff_eq]
    refine ⟨word.word.symm, ?_⟩
    cases single with
    | false => exact .inl rfl
    | true => exact .inr (word.short rfl)

namespace Text

variable {name inside index text : Text} {single : Bool}

theorem IsDotted.isWordChar_or_dot (dotted : name.IsDotted) :
    ∀ c ∈ name, MissionScript.isWordChar c ∨ c = '.' := by
  obtain ⟨words, -, identifiers, rfl⟩ := dotted
  have letters : ∀ word ∈ words, ∀ c ∈ word, MissionScript.isWordChar c ∨ c = '.' := by
    intro word among c member
    exact .inl ((isWordChar_of_isIdentifier (identifiers word among)).2 c member)
  exact forall_mem_intercalate (.inr rfl) letters

theorem IsDotted.isFlat (dotted : name.IsDotted) : name.IsFlat := by
  intro c member
  apply isFlat_of_plain
  cases dotted.isWordChar_or_dot c member with
  | inl letter => simp [letter]
  | inr dot => simp [dot]

theorem IsIndexWord.isWordChar (word : index.IsIndexWord single) : ∀ c ∈ index, isWordChar c := by
  intro c member
  cases word.word with
  | inl identifier => exact (isWordChar_of_isIdentifier identifier).2 c member
  | inr digits => simp [MissionScript.isWordChar, Char.isAlphanum, digits.2 c member]

theorem IsIndexWord.isWordChar_or_isBlank (word : index.trim.IsIndexWord single) :
    ∀ c ∈ index, MissionScript.isWordChar c ∨ isBlank c := by
  intro c member
  exact (mem_trim_or_isBlank member).imp_left (word.isWordChar c)

theorem IsIndices.isFlat (indices : inside.IsIndices single) : inside.IsFlat := by
  obtain ⟨indices, -, words, rfl⟩ := indices
  have flat : ∀ index ∈ indices, IsFlat index := by
    intro index among c member
    apply isFlat_of_plain
    cases (words index among).isWordChar_or_isBlank c member with
    | inl letter => simp [letter]
    | inr blank => simp [blank]
  exact forall_mem_intercalate (by decide) flat

theorem splitOn_intercalate_indices {indices : List Text} (filled : indices ≠ [])
    (words : ∀ index ∈ indices, IsIndexWord single (trim index)) :
    ([','].intercalate indices).splitOn ',' = indices := by
  apply List.splitOn_intercalate ',' _ filled
  intro index among member
  have kind := (words index among).isWordChar_or_isBlank ',' member
  revert kind
  decide

end Text

/-! ### Reading a subscript -/

theorem splitFirst_append {p : Glyph → Bool} {before : List Glyph} {g : Glyph}
    (passed : ∀ h ∈ before, p h = false) (found : p g) (rest : List Glyph) :
    splitFirst p (before ++ g :: rest) = some (before, g, rest) := by
  induction before with
  | nil => simp [splitFirst, found]
  | cons h before ih =>
      obtain ⟨first, others⟩ := List.forall_mem_cons.mp passed
      simp [splitFirst, first, ih others]

theorem opening_inj {b c : Bracket} (same : b.opening = c.opening) : b = c := by
  revert same
  cases b <;> cases c <;> decide

theorem find?_opens {families : List Bracket} {b : Bracket} (known : b ∈ families) {g : Glyph}
    (opens : g.opens b) : families.find? g.opens = some b := by
  have exists' : (families.find? g.opens).isSome := List.find?_isSome.mpr ⟨b, known, opens⟩
  obtain ⟨c, found⟩ := Option.isSome_iff_exists.mp exists'
  have same := Glyph.char_of_opens (List.find?_some found)
  rw [Glyph.char_of_opens opens] at same
  rw [found, opening_inj same]

theorem unquoted_group {inside more : Text} (flat : inside.IsFlat) (b : Bracket) (unquoted : '\'' ∉ more) :
    '\'' ∉ b.opening :: (inside ++ b.closing :: more) := by
  have brackets : '\'' ≠ b.opening ∧ '\'' ≠ b.closing := by cases b <;> decide
  simp [flat.unquoted, brackets, unquoted]

/-- A group between flat texts is found from either end. -/
theorem unquotedFrom_group {name inside : Text} (flatName : name.IsFlat) (flatInside : inside.IsFlat)
    (b : Bracket) (more : Text) :
    unquotedFrom 0 (name ++ b.opening :: (inside ++ b.closing :: more)) =
      unquotedFrom 0 name ++ ⟨b.opening, false, 0⟩ ::
        (unquotedFrom 1 inside ++ ⟨b.closing, false, 1⟩ :: unquotedFrom 0 more) := by
  have deeper : depthAfter 0 b.opening = 1 := by cases b <;> decide
  have back : depthAfter 1 b.closing = 0 := by cases b <;> decide
  rw [unquotedFrom_append, flatName.level, unquotedFrom, deeper, unquotedFrom_append, flatInside.level,
    unquotedFrom, back]

/-- The search for the end of a group with flat contents. -/
theorem splitClosing_unquotedFrom {inside : Text} (flat : inside.IsFlat) (b : Bracket) (depth : Nat)
    (rest : List Glyph) :
    b.splitClosing 0 (unquotedFrom depth inside ++ ⟨b.closing, false, depth⟩ :: rest) =
      some (unquotedFrom depth inside, rest) := by
  have sound : wordFault [] (marksOf (unquotedFrom depth inside)) = none := by
    rw [flat.marksOf_eq_nil]
    rfl
  have passed := Bracket.splitClosing_append sound b 0 (⟨b.closing, false, depth⟩ :: rest)
  rw [Bracket.splitClosing_closing _ (closes_closing b depth)] at passed
  simpa using passed

section Reading

variable {families : List Bracket} {single : Bool} {fragment name inside : Text}

theorem isSubscript_of_trim (subscript : (Text.trim fragment).IsSubscript families single) :
    isSubscript families single fragment := by
  obtain ⟨name, inside, b, known, named, indexed, whole⟩ := subscript
  have flatName : name.IsFlat := by
    cases named with
    | inl missing => exact missing ▸ List.forall_mem_nil _
    | inr dotted => exact dotted.isFlat
  have flatInside := indexed.isFlat
  have unquoted : '\'' ∉ Text.trim fragment := by
    rw [whole, List.mem_append, not_or]
    exact ⟨flatName.unquoted, unquoted_group flatInside b List.not_mem_nil⟩
  have glyphs := glyphs_eq_unquotedFrom unquoted
  rw [whole, unquotedFrom_group flatName flatInside b [], ← whole] at glyphs
  have passed : ∀ g ∈ unquotedFrom 0 name, families.any g.opens = false := by
    intro g member
    simp [Glyph.opens_of_mark?_eq_none (flatName.mark?_eq_none 0 g member)]
  have opens := opens_opening b 0
  have found : families.any (Glyph.opens ⟨b.opening, false, 0⟩) := List.any_eq_true.mpr ⟨b, known, opens⟩
  obtain ⟨indices, count, words, joined⟩ := indexed
  have filled : indices ≠ [] := by
    intro none
    simp [none] at count
  have parts : inside.splitOn ',' = indices := by
    rw [joined, Text.splitOn_intercalate_indices filled words]
  have prefixed : (name.isEmpty || name.isDottedName) = true := by
    cases named with
    | inl missing => simp [missing]
    | inr dotted => simp [isDottedName_iff.mpr dotted]
  have few : indices.length ≤ 2 := by omega
  have accepted : indices.all (fun index => isIndex single (Text.trim index)) = true :=
    List.all_eq_true.mpr fun index among => isIndex_iff.mpr (words index among)
  simp only [isSubscript, glyphs, splitFirst_append passed found, find?_opens known opens,
    splitClosing_unquotedFrom flatInside, unquotedFrom, ofGlyphs_unquotedFrom, parts]
  simp [prefixed, few, accepted]

/-- The parts of a fragment that is read as a subscript. -/
theorem isSubscript_trim_of_accepted (accepted : isSubscript families single fragment) :
    (Text.trim fragment).IsSubscript families single := by
  simp only [isSubscript] at accepted
  split at accepted
  · cases accepted
  · next before opening rest first =>
      split at accepted
      · cases accepted
      · next family known =>
          split at accepted
          · next inside last =>
              obtain ⟨whole, -⟩ := append_of_splitFirst first
              obtain ⟨closing, closes, behind⟩ := Bracket.append_of_splitClosing last
              have opens := List.find?_some known
              simp only [Bool.and_eq_true, Bool.or_eq_true, decide_eq_true_eq, List.isEmpty_iff,
                List.all_eq_true, isIndex_iff, isDottedName_iff] at accepted
              obtain ⟨⟨named, few⟩, words⟩ := accepted
              have count : ((Text.ofGlyphs inside).splitOn ',').length = 1 ∨
                  ((Text.ofGlyphs inside).splitOn ',').length = 2 := by
                have filled := List.length_pos_iff.mpr (List.splitOn_ne_nil ',' (Text.ofGlyphs inside))
                omega
              have joined : Text.ofGlyphs inside = [','].intercalate ((Text.ofGlyphs inside).splitOn ',') :=
                (List.intercalate_splitOn ',').symm
              rw [behind] at whole
              exact ⟨_, _, family, List.mem_of_find?_eq_some known, named, ⟨_, count, words, joined⟩,
                Bracket.text_eq whole opens closes⟩
          · cases accepted

/-- A fragment is a subscript exactly if it is built like one, blanks around it apart. -/
theorem isSubscript_iff (families : List Bracket) (single : Bool) (fragment : Text) :
    isSubscript families single fragment ↔ (Text.trim fragment).IsSubscript families single :=
  ⟨isSubscript_trim_of_accepted, isSubscript_of_trim⟩

end Reading

end MissionScript
