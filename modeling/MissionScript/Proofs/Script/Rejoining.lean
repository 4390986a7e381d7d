import Mathlib.Data.List.Forall2
import MissionScript.Proofs.Bracket.Blanks
import MissionScript.Proofs.Bracket.Subscript
import MissionScript.Proofs.Script.Conservation

/-!
# Decomposing what was joined

Blanks and commas stand between the tokens of a list and within their subscripts. A subscript is closed up
before the list is cut, and its group is glued to the name in front of it, so the cuts are made between the
tokens only.
-/

namespace MissionScript

/-! ### Joined tokens -/

/-- A dotted name with indices in brackets of the family. -/
def Bracket.element (b : Bracket) (name : Text) (indices : List Text) : Text :=
  name ++ b.opening :: ([','].intercalate indices ++ [b.closing])

/-- An index and how it is written, with blanks around it. -/
def IsPadded (index written : Text) : Prop :=
  ∃ left right : Text, left.isBlankText ∧ right.isBlankText ∧ written = left ++ (index ++ right)

/-- A token and how it is written: a dotted name, or one with a subscript of one or two indices in round or
square brackets, with blanks around the indices. -/
inductive Spelling (family : Bracket) : Text → Text → Prop where
  | name {name : Text} : name.IsDotted → Spelling family name name
  | subscript {name : Text} {indices written : List Text} :
      family ≠ .brace → name.IsDotted → (indices.length = 1 ∨ indices.length = 2) →
        (∀ index ∈ indices, Text.IsIndexWord false index) → List.Forall₂ IsPadded indices written →
          Spelling family (family.element name indices) (family.element name written)

/-- Texts one behind the other, with blanks and commas between them. -/
inductive Joined : List Text → Text → Prop where
  | nil : Joined [] []
  | single (part : Text) : Joined [part] part
  | cons (part : Text) {next run text : Text} {parts : List Text} :
      run ≠ [] → (∀ c ∈ run, isSeparator c) → Joined (next :: parts) text →
        Joined (part :: next :: parts) (part ++ (run ++ text))

/-! ### Characters of a token -/

namespace Text

variable {left right text : Text}

theorem Trimmed.of_not_isBlank (filled : text ≠ []) (letters : ∀ c ∈ text, isBlank c = false) :
    text.Trimmed where
  filled := filled
  first := fun c first => letters c (List.mem_of_head? first)
  last := fun c last => letters c (List.mem_of_getLast? last)

theorem Trimmed.around (first : left.Trimmed) (last : right.Trimmed) (between : Text) :
    Text.Trimmed (left ++ (between ++ right)) where
  filled := by simp [first.filled]
  first := by
    rw [List.head?_append_of_ne_nil _ first.filled]
    exact first.first
  last := by
    rw [← List.append_assoc, List.getLast?_append_of_ne_nil _ last.filled]
    exact last.last

theorem IsDotted.isBlank (dotted : text.IsDotted) : ∀ c ∈ text, isBlank c = false := by
  intro c member
  cases dotted.isWordChar_or_dot c member with
  | inl letter => exact isBlank_of_isWordChar letter
  | inr dot => exact dot ▸ by decide

theorem IsDotted.filled (dotted : text.IsDotted) : text ≠ [] := by
  obtain ⟨words, filled, identifiers, rfl⟩ := dotted
  obtain ⟨word, words, rfl⟩ := List.exists_cons_of_ne_nil filled
  have first := (isWordChar_of_isIdentifier (identifiers word List.mem_cons_self)).1
  cases words with
  | nil => simpa using first
  | cons next words => simp [first]

theorem IsDotted.trimmed (dotted : text.IsDotted) : text.Trimmed :=
  .of_not_isBlank dotted.filled dotted.isBlank

theorem IsIndexWord.isBlank {single : Bool} (word : text.IsIndexWord single) :
    ∀ c ∈ text, isBlank c = false :=
  fun c member => isBlank_of_isWordChar (word.isWordChar c member)

theorem IsIndexWord.trim {single : Bool} (word : text.IsIndexWord single) : Text.trim text = text := by
  apply Trimmed.trim
  apply Trimmed.of_not_isBlank _ word.isBlank
  cases word.word with
  | inl identifier => exact (isWordChar_of_isIdentifier identifier).1
  | inr digits => exact digits.1

end Text

theorem isFlat_of_isSeparator {c : Char} (separates : isSeparator c) : isFlat c := by
  rw [isSeparator, Bool.or_eq_true] at separates
  apply isFlat_of_plain
  cases separates with
  | inl blank => simp [blank]
  | inr comma => simp [comma]

theorem isFlat_of_separators {run : Text} (separates : ∀ c ∈ run, isSeparator c) : run.IsFlat :=
  fun c member => isFlat_of_isSeparator (separates c member)

/-! ### Indices with blanks around them -/

theorem IsPadded.refl (index : Text) : IsPadded index index := ⟨[], [], rfl, rfl, by simp⟩

theorem IsPadded.filter {index written : Text} (padded : IsPadded index written)
    (word : index.IsIndexWord false) : written.filter (!isBlank ·) = index := by
  obtain ⟨left, right, blankLeft, blankRight, rfl⟩ := padded
  have none {blanks : Text} (blank : blanks.isBlankText) : blanks.filter (!isBlank ·) = [] := by
    rw [List.filter_eq_nil_iff]
    intro c member
    simp [List.all_eq_true.mp blank c member]
  have all : index.filter (!isBlank ·) = index := by
    rw [List.filter_eq_self]
    intro c member
    simp [word.isBlank c member]
  simp only [List.filter_append, none blankLeft, none blankRight, all, List.nil_append, List.append_nil]

theorem IsPadded.isFlat {index written : Text} (padded : IsPadded index written)
    (word : index.IsIndexWord false) : written.IsFlat := by
  obtain ⟨left, right, blankLeft, blankRight, rfl⟩ := padded
  have flat : index.IsFlat := by
    intro c member
    apply isFlat_of_plain
    simp [word.isWordChar c member]
  exact (Text.IsFlat.of_isBlankText blankLeft).append (flat.append (.of_isBlankText blankRight))

section Indices

variable {indices written : List Text}

theorem filter_intercalate (padded : List.Forall₂ IsPadded indices written)
    (words : ∀ index ∈ indices, Text.IsIndexWord false index) :
    ([','].intercalate written).filter (!isBlank ·) = [','].intercalate indices := by
  induction padded with
  | nil => rfl
  | cons first rest ih =>
      obtain ⟨word, words⟩ := List.forall_mem_cons.mp words
      have here := first.filter word
      have behind := ih words
      cases rest with
      | nil => simpa using here
      | cons second rest =>
          simp only [List.intercalate_cons_cons, List.filter_append, here, behind]
          rfl

theorem isFlat_intercalate (padded : List.Forall₂ IsPadded indices written)
    (words : ∀ index ∈ indices, Text.IsIndexWord false index) :
    Text.IsFlat ([','].intercalate written) := by
  have flat : ∀ piece ∈ written, Text.IsFlat piece := by
    induction padded with
    | nil => exact List.forall_mem_nil _
    | cons first rest ih =>
        obtain ⟨word, words⟩ := List.forall_mem_cons.mp words
        exact List.forall_mem_cons.mpr ⟨first.isFlat word, ih words⟩
  exact Text.forall_mem_intercalate (by decide) flat

theorem isFlat_indices (words : ∀ index ∈ indices, Text.IsIndexWord false index) :
    Text.IsFlat ([','].intercalate indices) :=
  isFlat_intercalate (List.forall₂_same.mpr fun index _ => .refl index) words

end Indices

/-! ### A name with a subscript -/

section Elements

variable {name : Text} {indices : List Text} (dotted : name.IsDotted) (b : Bracket)

include dotted

theorem trimmed_element (indices : List Text) : Text.Trimmed (b.element name indices) := by
  have closing : Text.Trimmed [b.closing] := by
    apply Text.Trimmed.of_not_isBlank (by simp)
    rw [List.forall_mem_singleton]
    cases b <;> decide
  exact dotted.trimmed.around closing (b.opening :: _)

variable (words : ∀ index ∈ indices, Text.IsIndexWord false index)

include words

theorem unquotedFrom_element (more : Text) :
    unquotedFrom 0 (b.element name indices ++ more) =
      unquotedFrom 0 name ++ ⟨b.opening, false, 0⟩ ::
        (unquotedFrom 1 ([','].intercalate indices) ++ ⟨b.closing, false, 1⟩ :: unquotedFrom 0 more) := by
  rw [← unquotedFrom_group dotted.isFlat (isFlat_indices words)]
  simp [Bracket.element]

theorem isSubscript_element (count : indices.length = 1 ∨ indices.length = 2) :
    isSubscript [b] false (b.element name indices) := by
  have trimmed : ∀ index ∈ indices, Text.IsIndexWord false (Text.trim index) := by
    intro index among
    rw [(words index among).trim]
    exact words index among
  apply isSubscript_of_trim
  rw [(trimmed_element dotted b indices).trim]
  exact ⟨name, _, b, List.mem_singleton_self b, .inr dotted, ⟨indices, count, trimmed, rfl⟩, rfl⟩

end Elements

/-! ### Closing up the subscripts -/

theorem removeInnerBlanks_append {left right : Text} (flat : left.IsFlat) (unquoted : '\'' ∉ right)
    (families : List Bracket) :
    removeInnerBlanks families (left ++ right) = left ++ removeInnerBlanks families right := by
  have whole : '\'' ∉ left ++ right := by simp [flat.unquoted, unquoted]
  rw [removeInnerBlanks, removeInnerBlanks, glyphs_eq_unquotedFrom whole, glyphs_eq_unquotedFrom unquoted,
    unquotedFrom_append, flat.level, keepOutsideBlanks_append (flat.mark?_eq_none 0), Text.ofGlyphs_append]
  simp [ofGlyphs_unquotedFrom]

theorem removeInnerBlanks_group {families : List Bracket} {b : Bracket} (known : b ∈ families)
    {inside more : Text} (flat : inside.IsFlat) (unquoted : '\'' ∉ more) :
    removeInnerBlanks families (b.opening :: (inside ++ b.closing :: more)) =
      b.opening :: (inside.filter (!isBlank ·) ++ b.closing :: removeInnerBlanks families more) := by
  have whole := unquoted_group flat b unquoted
  have opens : families.any (Glyph.opens ⟨b.opening, false, 0⟩) :=
    List.any_eq_true.mpr ⟨b, known, opens_opening b 0⟩
  have closes : families.any (Glyph.closes ⟨b.closing, false, 1⟩) :=
    List.any_eq_true.mpr ⟨b, known, closes_closing b 1⟩
  have unopened : families.any (Glyph.opens ⟨b.closing, false, 1⟩) = false := by
    apply List.any_eq_false.mpr
    intro c _
    simp [Glyph.opens_eq_false_of_closes (closes_closing b 1)]
  have first (rest : List Glyph) : keepOutsideBlanks families 0 (⟨b.opening, false, 0⟩ :: rest) =
      ⟨b.opening, false, 0⟩ :: keepOutsideBlanks families 1 rest := by
    simp [keepOutsideBlanks, opens]
  have last (rest : List Glyph) : keepOutsideBlanks families 1 (⟨b.closing, false, 1⟩ :: rest) =
      ⟨b.closing, false, 1⟩ :: keepOutsideBlanks families 0 rest := by
    simp [keepOutsideBlanks, unopened, closes]
  have kept : Text.ofGlyphs ((unquotedFrom 1 inside).filter fun g => g.quoted || 1 == 0 || !isBlank g.char) =
      inside.filter (!isBlank ·) := by
    rw [flat.unquotedFrom_eq]
    simp [Text.ofGlyphs, List.filter_map, Function.comp_def]
  have group := @unquotedFrom_group [] inside (List.forall_mem_nil _) flat b more
  simp only [unquotedFrom, List.nil_append] at group
  rw [removeInnerBlanks, removeInnerBlanks, glyphs_eq_unquotedFrom whole, glyphs_eq_unquotedFrom unquoted]
  simp only [unquotedFrom, group, first, keepOutsideBlanks_append (flat.mark?_eq_none 1), last,
    Text.ofGlyphs_append, Text.ofGlyphs_cons, kept]

/-- What is written is the token once the blanks in its brackets are taken out, whatever stands behind it. -/
structure ClosesUp (token part : Text) : Prop where
  unquoted : '\'' ∉ part
  closes : ∀ more : Text, '\'' ∉ more → removeInnerBlanks [.paren, .square] (part ++ more) =
    token ++ removeInnerBlanks [.paren, .square] more

namespace ClosesUp

theorem name {name : Text} (dotted : name.IsDotted) : ClosesUp name name where
  unquoted := dotted.isFlat.unquoted
  closes := fun _ unquoted => removeInnerBlanks_append dotted.isFlat unquoted _

theorem group {b : Bracket} (known : b ∈ [.paren, .square]) {name inside : Text} (dotted : name.IsDotted)
    (flat : inside.IsFlat) : ClosesUp (name ++ b.opening :: (inside.filter (!isBlank ·) ++ [b.closing]))
      (name ++ b.opening :: (inside ++ [b.closing])) where
  unquoted := by
    have behind := unquoted_group flat b List.not_mem_nil
    simp only [List.mem_append, not_or]
    exact ⟨dotted.isFlat.unquoted, behind⟩
  closes := by
    intro more unquoted
    have behind := unquoted_group flat b unquoted
    simp only [List.append_assoc, List.cons_append, List.nil_append]
    rw [removeInnerBlanks_append dotted.isFlat behind, removeInnerBlanks_group known flat unquoted]

end ClosesUp

namespace Spelling

variable {family : Bracket} {token part : Text}

/-- A token may be written as it is. -/
theorem self (spelling : Spelling family token part) : Spelling family token token := by
  cases spelling with
  | name dotted => exact .name dotted
  | subscript round dotted count words _ =>
      exact .subscript round dotted count words (List.forall₂_same.mpr fun index _ => .refl index)

theorem not_mem (spelling : Spelling family token part) {c : Char} (other : isFlat c = false)
    (bracket : c ∉ ['(', ')', '[', ']']) : c ∉ part := by
  cases spelling with
  | name dotted => exact dotted.isFlat.not_mem other
  | subscript round dotted _ words padded =>
      have brackets : c ≠ family.opening ∧ c ≠ family.closing := by
        simp only [List.mem_cons, not_or] at bracket
        cases family with
        | paren => exact ⟨bracket.1, bracket.2.1⟩
        | square => exact ⟨bracket.2.2.1, bracket.2.2.2.1⟩
        | brace => exact absurd rfl round
      simp [Bracket.element, dotted.isFlat.not_mem other, brackets,
        (isFlat_intercalate padded words).not_mem other]

theorem trimmed (spelling : Spelling family token part) : part.Trimmed := by
  cases spelling with
  | name dotted => exact dotted.trimmed
  | subscript _ dotted _ _ _ => exact trimmed_element dotted family _

theorem closesUp (spelling : Spelling family token part) : ClosesUp token part := by
  cases spelling with
  | name dotted => exact .name dotted
  | @subscript name indices written round dotted count words padded =>
      have known : family ∈ [.paren, .square] := by
        cases family with
        | paren => simp
        | square => simp
        | brace => exact absurd rfl round
      have closed := ClosesUp.group known dotted (isFlat_intercalate padded words)
      rwa [filter_intercalate padded words] at closed

end Spelling

/-! ### Cutting at the separators -/

theorem isSeparator_of_isDotted {name : Text} (dotted : name.IsDotted) :
    ∀ c ∈ name, isSeparator c = false := by
  intro c member
  have blank := dotted.isBlank c member
  have comma : c ≠ ',' := by
    intro same
    have kind := dotted.isWordChar_or_dot c member
    subst same
    revert kind
    decide
  simp [isSeparator, blank, comma]

namespace Parted

variable {family : Bracket} {subscripts : Bool} {piece rest : List Glyph} {pieces : List (List Glyph)}

/-- Glyphs that are neither brackets nor separators are read into the piece that they belong to. -/
theorem others {gs : List Glyph} (plain : ∀ g ∈ gs, g.mark? = none)
    (unseparated : ∀ g ∈ gs, isSeparator g.char = false)
    (parted : Parted family subscripts (gs.reverse ++ piece) rest pieces) :
    Parted family subscripts piece (gs ++ rest) pieces := by
  induction gs generalizing piece with
  | nil => exact parted
  | cons g gs ih =>
      obtain ⟨none, plain⟩ := List.forall_mem_cons.mp plain
      obtain ⟨apart, unseparated⟩ := List.forall_mem_cons.mp unseparated
      have unopened := Glyph.opens_of_mark?_eq_none none family
      apply Parted.other (by simp [unopened]) (by simp [apart])
      apply ih plain unseparated
      simpa using parted

/-- A run of separators ends the piece in front of it, and nothing stands between them. -/
theorem run {run : Text} (piece : List Glyph) (filled : run ≠ []) (separates : ∀ c ∈ run, isSeparator c)
    (parted : Parted family subscripts [] rest pieces) :
    ∃ more, Parted family subscripts piece (unquotedFrom 0 run ++ rest) (piece.reverse :: more) ∧
      tidy more = tidy pieces := by
  induction run generalizing piece with
  | nil => exact absurd rfl filled
  | cons c run ih =>
      obtain ⟨here, separates⟩ := List.forall_mem_cons.mp separates
      have flat := isFlat_of_isSeparator here
      have top : Glyph.isTop ⟨c, false, 0⟩ := by
        rw [isFlat, Bool.and_eq_true, Option.isNone_iff_eq_none] at flat
        exact Glyph.isTop_iff.mpr ⟨rfl, rfl, flat.2⟩
      rw [unquotedFrom, depthAfter_of_isFlat flat]
      cases run with
      | nil => exact ⟨pieces, .separator top here parted, rfl⟩
      | cons d run =>
          obtain ⟨more, parted, same⟩ := ih [] (List.cons_ne_nil d run) separates
          exact ⟨_, .separator top here parted, (tidy_cons [] more).trans same⟩

end Parted

namespace Spelling

variable {family : Bracket} {token part : Text}

theorem unquotedFrom_append (spelling : Spelling family token part) (more : Text) :
    unquotedFrom 0 (token ++ more) = unquotedFrom 0 token ++ unquotedFrom 0 more := by
  cases spelling with
  | name dotted => rw [MissionScript.unquotedFrom_append, dotted.isFlat.level]
  | @subscript name indices written _ dotted _ words _ =>
      have whole := unquotedFrom_element dotted family words
      have alone := whole []
      rw [List.append_nil] at alone
      rw [whole, alone]
      simp [unquotedFrom]

theorem balanced (spelling : Spelling family token part) : Balanced (marksOf (unquotedFrom 0 token)) := by
  cases spelling with
  | name dotted =>
      rw [dotted.isFlat.marksOf_eq_nil]
      exact .nil
  | @subscript name indices written _ dotted _ words _ =>
      have alone := unquotedFrom_element dotted family words []
      rw [List.append_nil] at alone
      have front := dotted.isFlat.marksOf_eq_nil 0
      have inner := (isFlat_indices words).marksOf_eq_nil 1
      have opening := Glyph.mark?_opening.mpr (opens_opening family 0)
      have closing := Glyph.mark?_closing.mpr (closes_closing family 1)
      rw [alone, marksOf_append, marksOf_cons, marksOf_append, marksOf_cons, front, inner, opening, closing]
      exact .group family .nil .nil

/-- A token is one piece. -/
theorem parted (spelling : Spelling family token part) {rest : List Glyph} {pieces : List (List Glyph)}
    (parted : Parted family true (unquotedFrom 0 token).reverse rest pieces) :
    Parted family true [] (unquotedFrom 0 token ++ rest) pieces := by
  have name {name : Text} (dotted : name.IsDotted) {rest : List Glyph}
      (parted : Parted family true (unquotedFrom 0 name).reverse rest pieces) :
      Parted family true [] (unquotedFrom 0 name ++ rest) pieces := by
    apply Parted.others (dotted.isFlat.mark?_eq_none 0)
    · rw [dotted.isFlat.unquotedFrom_eq]
      exact List.forall_mem_map.mpr (isSeparator_of_isDotted dotted)
    · rwa [List.append_nil]
  cases spelling with
  | name dotted => exact name dotted parted
  | @subscript prefixed indices written _ dotted count words _ =>
      have alone := unquotedFrom_element dotted family words []
      simp only [List.append_nil, unquotedFrom] at alone
      have flat := isFlat_indices words
      have read : Text.ofGlyphs ((unquotedFrom 0 prefixed).reverse.reverse ++ ⟨family.opening, false, 0⟩ ::
          (unquotedFrom 1 ([','].intercalate indices) ++ [⟨family.closing, false, 1⟩])) =
            family.element prefixed indices := by
        simp only [List.reverse_reverse, Text.ofGlyphs_append, Text.ofGlyphs_cons, ofGlyphs_unquotedFrom]
        rfl
      have glued := isSubscript_element dotted family words count
      rw [← read, ← Bool.true_and (isSubscript _ _ _)] at glued
      rw [alone] at parted ⊢
      simp only [List.append_assoc, List.cons_append, List.nil_append]
      apply name dotted
      apply Parted.glued (opens_opening family 0) rfl (splitClosing_unquotedFrom flat family 1 rest) glued
      simpa using parted

end Spelling

/-! ### Lists of tokens -/

section Tokens

variable {family : Bracket} {tokens parts : List Text} {text : Text}

theorem exists_spelling (spelled : List.Forall₂ (Spelling family) tokens parts) :
    ∀ part ∈ parts, ∃ token, Spelling family token part := by
  induction spelled with
  | nil => exact List.forall_mem_nil _
  | cons first _ ih => exact List.forall_mem_cons.mpr ⟨⟨_, first⟩, ih⟩

theorem spelling_self (spelled : List.Forall₂ (Spelling family) tokens parts) :
    ∀ token ∈ tokens, Spelling family token token := by
  induction spelled with
  | nil => exact List.forall_mem_nil _
  | cons first _ ih => exact List.forall_mem_cons.mpr ⟨first.self, ih⟩

namespace Joined

/-- Joining adds nothing but separators. -/
theorem forall_mem (joined : Joined parts text) {p : Char → Prop} (separators : ∀ c, isSeparator c → p c)
    (each : ∀ part ∈ parts, ∀ c ∈ part, p c) : ∀ c ∈ text, p c := by
  induction joined with
  | nil => exact List.forall_mem_nil _
  | single part => exact each part List.mem_cons_self
  | @cons part next run text parts _ separates _ ih =>
      obtain ⟨first, others⟩ := List.forall_mem_cons.mp each
      refine List.forall_mem_append.mpr ⟨first, List.forall_mem_append.mpr ⟨fun c member => ?_, ih others⟩⟩
      exact separators c (separates c member)

theorem not_mem (joined : Joined parts text) {c : Char} (other : isFlat c = false)
    (absent : ∀ part ∈ parts, c ∉ part) : c ∉ text := by
  intro member
  refine joined.forall_mem (p := (· ≠ c)) (fun d separates same => ?_)
    (fun part among d inside same => absent part among (same ▸ inside)) c member rfl
  rw [same] at separates
  rw [isFlat_of_isSeparator separates] at other
  cases other

theorem trimmed (joined : Joined parts text) (trimmed : ∀ part ∈ parts, Text.Trimmed part)
    (filled : parts ≠ []) : text.Trimmed := by
  induction joined with
  | nil => exact absurd rfl filled
  | single part => exact trimmed part List.mem_cons_self
  | @cons part next run text parts _ _ _ ih =>
      obtain ⟨first, others⟩ := List.forall_mem_cons.mp trimmed
      exact first.around (ih others (List.cons_ne_nil _ _)) run

theorem trim_eq (joined : Joined parts text) (trimmed : ∀ part ∈ parts, Text.Trimmed part) :
    text.trim = text := by
  cases parts with
  | nil =>
      cases joined
      rfl
  | cons part parts => exact (joined.trimmed trimmed (List.cons_ne_nil _ _)).trim

/-- Closed up, the tokens are joined by the same runs. -/
theorem removeInnerBlanks (joined : Joined parts text) (closed : List.Forall₂ ClosesUp tokens parts) :
    Joined tokens (removeInnerBlanks [.paren, .square] text) ∧ '\'' ∉ text := by
  induction joined generalizing tokens with
  | nil =>
      cases closed
      exact ⟨.nil, List.not_mem_nil⟩
  | single part =>
      cases closed with
      | @cons token _ _ _ here rest =>
          cases rest
          have alone := here.closes [] List.not_mem_nil
          have nothing : MissionScript.removeInnerBlanks [.paren, .square] [] = [] := rfl
          rw [nothing, List.append_nil, List.append_nil] at alone
          rw [alone]
          exact ⟨.single token, here.unquoted⟩
  | @cons part next run text parts filled separates behind ih =>
      cases closed with
      | @cons token _ _ _ here rest =>
          have flat := isFlat_of_separators separates
          obtain ⟨others, unquoted⟩ := ih rest
          have between : '\'' ∉ run ++ text := by simp [flat.unquoted, unquoted]
          rw [here.closes _ between, removeInnerBlanks_append flat unquoted]
          cases rest
          exact ⟨.cons token filled separates others, by simp [here.unquoted, flat.unquoted, unquoted]⟩

/-- The subscripts of the tokens are the only groups. -/
theorem balanced (joined : Joined tokens text) (spelled : ∀ token ∈ tokens, Spelling family token token) :
    Balanced (marksOf (unquotedFrom 0 text)) := by
  induction joined with
  | nil => exact .nil
  | single token => exact (spelled token List.mem_cons_self).balanced
  | @cons token next run text tokens _ separates _ ih =>
      obtain ⟨first, others⟩ := List.forall_mem_cons.mp spelled
      have flat := isFlat_of_separators separates
      rw [first.unquotedFrom_append, unquotedFrom_append, flat.level, marksOf_append, marksOf_append,
        flat.marksOf_eq_nil]
      exact first.balanced.append (ih others)

/-- The tokens are cut out as they are. -/
theorem parted (joined : Joined tokens text) (spelled : ∀ token ∈ tokens, Spelling family token token) :
    ∃ pieces, Parted family true [] (unquotedFrom 0 text) pieces ∧ tidy pieces = tokens := by
  have read {token : Text} (spelling : Spelling family token token) (pieces : List (List Glyph)) :
      tidy ((unquotedFrom 0 token).reverse.reverse :: pieces) = token :: tidy pieces := by
    have unquoted : '\'' ∉ token := spelling.not_mem (by decide) (by decide)
    rw [List.reverse_reverse, ← glyphs_eq_unquotedFrom unquoted]
    exact tidy_cons_of_trimmed spelling.trimmed pieces
  induction joined with
  | nil => exact ⟨[[]], .done [], rfl⟩
  | single token =>
      have spelling := spelled token List.mem_cons_self
      have parted := spelling.parted (.done (unquotedFrom 0 token).reverse)
      rw [List.append_nil] at parted
      exact ⟨_, parted, read spelling []⟩
  | @cons token next run text tokens filled separates _ ih =>
      obtain ⟨spelling, others⟩ := List.forall_mem_cons.mp spelled
      obtain ⟨pieces, parted, same⟩ := ih others
      obtain ⟨more, parted, dropped⟩ := parted.run (unquotedFrom 0 token).reverse filled separates
      have flat := isFlat_of_separators separates
      rw [spelling.unquotedFrom_append, unquotedFrom_append, flat.level]
      exact ⟨_, spelling.parted parted, by rw [read spelling, dropped, same]⟩

end Joined

/-- A text that is made of tokens once its groups are closed up is decomposed into them. -/
theorem decompose_of_readied (spelled : ∀ token ∈ tokens, Spelling family token token)
    (tight : Joined tokens (text.readied true)) : decompose family true false text = .ok tokens := by
  rw [decompose_eq, Text.stripped_false]
  generalize text.readied true = text at tight
  have absent {c : Char} (other : isFlat c = false) (bracket : c ∉ ['(', ')', '[', ']']) : c ∉ text :=
    tight.not_mem other fun token among => (spelled token among).not_mem other bracket
  have glyphs : text.glyphs = unquotedFrom 0 text := glyphs_eq_unquotedFrom (absent (by decide) (by decide))
  have balanced : checkBalance text = .ok () := by
    rw [checkBalance_eq_ok_iff, Text.marks, glyphs]
    exact tight.balanced spelled
  have options : splitOptions? text = none := by
    apply splitOptions?_eq_none
    intro g member
    have other : g.char ≠ '\x7b' := by
      intro same
      have inside : g.char ∈ text := char_mem_of_mem_glyphsFrom member
      exact absent (by decide) (by decide) (same ▸ inside)
    simp [Glyph.opens, Bracket.opening, other]
  obtain ⟨pieces, parted, whole⟩ := tight.parted spelled
  obtain ⟨others, -, cut, done⟩ := exists_cutUp balanced family true
  rw [glyphs, parted.splitGroups_eq] at cut
  cases cut
  rw [balanced, done, options, Option.getD_none, whole]
  rfl

/-- A list of tokens is decomposed into the tokens that it was made of. -/
theorem decompose_joined (spelled : List.Forall₂ (Spelling family) tokens parts)
    (joined : Joined parts text) : decompose family true false text = .ok tokens := by
  have trimmed : ∀ part ∈ parts, Text.Trimmed part := by
    intro part among
    obtain ⟨token, spelling⟩ := exists_spelling spelled part among
    exact spelling.trimmed
  apply decompose_of_readied (spelling_self spelled)
  rw [Text.readied, if_pos rfl, joined.trim_eq trimmed]
  exact (joined.removeInnerBlanks (spelled.imp fun _ _ => Spelling.closesUp)).1

end Tokens

/-- Two indices and one, with blanks around them, and a line feed between tokens. -/
theorem decompose_joined_elements :
    List.Forall₂ (Spelling .paren) ["v(1,n)".toList, "Sat1.Pos(i)".toList, "w".toList]
        ["v( 1 ,n )".toList, "Sat1.Pos(i )".toList, "w".toList] ∧
      Joined ["v( 1 ,n )".toList, "Sat1.Pos(i )".toList, "w".toList] "v( 1 ,n ) , Sat1.Pos(i )\nw".toList ∧
        decompose .paren true false "v( 1 ,n ) , Sat1.Pos(i )\nw".toList =
          .ok ["v(1,n)".toList, "Sat1.Pos(i)".toList, "w".toList] := by
  have dotted {name : Text} (read : name.isDottedName) : name.IsDotted := isDottedName_iff.mp read
  have words {indices : List Text} (read : indices.all (isIndex false)) :
      ∀ index ∈ indices, Text.IsIndexWord false index :=
    fun index among => isIndex_iff.mp (List.all_eq_true.mp read index among)
  have first : Spelling .paren "v(1,n)".toList "v( 1 ,n )".toList :=
    @Spelling.subscript .paren ['v'] [['1'], ['n']] [" 1 ".toList, "n ".toList] nofun (dotted (by decide))
      (.inr rfl) (words (by decide))
      (.cons ⟨[' '], [' '], rfl, rfl, rfl⟩ (.cons ⟨[], [' '], rfl, rfl, rfl⟩ .nil))
  have second : Spelling .paren "Sat1.Pos(i)".toList "Sat1.Pos(i )".toList :=
    @Spelling.subscript .paren "Sat1.Pos".toList [['i']] ["i ".toList] nofun (dotted (by decide)) (.inl rfl)
      (words (by decide)) (.cons ⟨[], [' '], rfl, rfl, rfl⟩ .nil)
  have third : Spelling .paren "w".toList "w".toList := .name (dotted (by decide))
  have spelled : List.Forall₂ (Spelling .paren) ["v(1,n)".toList, "Sat1.Pos(i)".toList, "w".toList]
      ["v( 1 ,n )".toList, "Sat1.Pos(i )".toList, "w".toList] :=
    .cons first (.cons second (.cons third .nil))
  have separates {run : Text} (all : run.all isSeparator) : ∀ c ∈ run, isSeparator c :=
    List.all_eq_true.mp all
  have joined : Joined ["v( 1 ,n )".toList, "Sat1.Pos(i )".toList, "w".toList]
      "v( 1 ,n ) , Sat1.Pos(i )\nw".toList :=
    .cons "v( 1 ,n )".toList (List.cons_ne_nil ' ' [',', ' ']) (separates (by decide))
      (.cons "Sat1.Pos(i )".toList (List.cons_ne_nil '\n' []) (separates (by decide)) (.single ['w']))
  exact ⟨spelled, joined, decompose_joined spelled joined⟩

end MissionScript
