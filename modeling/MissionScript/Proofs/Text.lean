import Mathlib.Data.List.TakeWhile
import MissionScript.Text.Word

/-!
# Cutting texts

Facts about trimming, cutting and dropping that do not depend on what a text means.
-/

namespace MissionScript

theorem range_of_isAlpha {c : Char} (letter : c.isAlpha) :
    (65 ≤ c.toNat ∧ c.toNat ≤ 90) ∨ (97 ≤ c.toNat ∧ c.toNat ≤ 122) := by
  rcases Bool.or_eq_true_iff.mp letter with upper | lower
  · obtain ⟨low, high⟩ := of_decide_eq_true upper
    exact .inl ⟨UInt32.le_iff_toNat_le.mp low, UInt32.le_iff_toNat_le.mp high⟩
  · obtain ⟨low, high⟩ := Bool.and_eq_true_iff.mp lower
    exact .inr ⟨UInt32.le_iff_toNat_le.mp (of_decide_eq_true low),
      UInt32.le_iff_toNat_le.mp (of_decide_eq_true high)⟩

theorem isBlank_of_isWordChar {c : Char} (word : isWordChar c) : isBlank c = false := by
  simp only [isWordChar, Char.isAlphanum, Bool.or_eq_true, beq_iff_eq] at word
  apply isBlank_eq_false_of_graphic
  all_goals
    rcases word with (letter | digit) | rfl
    · have range := range_of_isAlpha letter
      omega
    · obtain ⟨low, high⟩ := Char.isDigit_iff_toNat.mp digit
      change 48 ≤ _ at low
      change _ ≤ 57 at high
      omega
    · decide

theorem ne_of_isBlank {c d : Char} (blank : isBlank c) (filled : isBlank d = false) : c ≠ d := by
  rintro rfl
  rw [blank] at filled
  cases filled

namespace Text

theorem drop_takeWhile (p : Char → Bool) (text : Text) :
    text.drop (text.takeWhile p).length = text.dropWhile p := by
  have behind : (text.takeWhile p ++ text.dropWhile p).drop (text.takeWhile p).length =
      text.dropWhile p := List.drop_left
  rwa [List.takeWhile_append_dropWhile] at behind

/-- A text is taken as far as its first part is, if what follows this part stops. -/
theorem takeWhile_eq_takeWhile {p q : Char → Bool} (wider : ∀ c, q c → p c) (text : Text)
    (stops : ∀ c ∈ text[(text.takeWhile q).length]?, p c = false) :
    text.takeWhile p = text.takeWhile q := by
  induction text with
  | nil => rfl
  | cons c text ih =>
      cases taken : q c with
      | true =>
          rw [List.takeWhile_cons_of_pos taken, List.takeWhile_cons_of_pos (wider c taken), ih]
          rwa [List.takeWhile_cons_of_pos taken, List.length_cons, List.getElem?_cons_succ] at stops
      | false =>
          have none := List.takeWhile_cons_of_neg (l := text) (by rw [taken]; simp : ¬q c)
          rw [none] at stops ⊢
          exact List.takeWhile_cons_of_neg (by rw [stops c rfl]; simp)

theorem dropEndWhile_cons (p : Char → Bool) (c : Char) (text : Text) :
    dropEndWhile p (c :: text) =
      if dropEndWhile p text = [] ∧ p c then [] else c :: dropEndWhile p text := by
  simp only [dropEndWhile, List.reverse_cons, List.dropWhile_append, List.reverse_eq_nil_iff]
  by_cases empty : text.reverse.dropWhile p = []
  · by_cases dropped : p c <;> simp [empty, dropped]
  · simp [empty]

theorem dropEndWhile_append {p : Char → Bool} {word : Text} (filled : word ≠ [])
    (kept : ∀ c ∈ word, p c = false) (text : Text) :
    dropEndWhile p (word ++ text) = word ++ dropEndWhile p text := by
  induction word with
  | nil => exact absurd rfl filled
  | cons c word ih =>
      rw [List.cons_append, dropEndWhile_cons, if_neg]
      · cases word with
        | nil => rfl
        | cons d word =>
            rw [ih (by simp) fun e member => kept e (List.mem_cons_of_mem _ member)]
            rfl
      · rintro ⟨-, dropped⟩
        rw [kept c (List.mem_cons_self ..)] at dropped
        cases dropped

theorem after?_eq_some_iff {lead text rest : Text} :
    after? lead text = some rest ↔ text = lead ++ rest := by
  induction lead generalizing text with
  | nil => simp [after?]
  | cons l lead ih =>
      cases text with
      | nil => simp [after?]
      | cons c text =>
          by_cases same : l = c
          · simp [after?, same, ih]
          · simp [after?, same, Ne.symm same]

theorem after?_eq_none_iff {lead text : Text} :
    after? lead text = none ↔ ∀ rest, text ≠ lead ++ rest := by
  rw [Option.eq_none_iff_forall_ne_some]
  simp only [ne_eq, after?_eq_some_iff]

theorem before?_eq_some_iff {tail text lead : Text} :
    before? tail text = some lead ↔ text = lead ++ tail := by
  rw [before?, Option.map_eq_some_iff]
  constructor
  · rintro ⟨rest, found, rfl⟩
    rw [after?_eq_some_iff] at found
    rw [← List.reverse_reverse text, found, List.reverse_append, List.reverse_reverse]
  · rintro rfl
    exact ⟨lead.reverse, after?_eq_some_iff.mpr List.reverse_append, List.reverse_reverse lead⟩

theorem cutAt_eq_none_iff {separator : Char} {text : Text} :
    cutAt separator text = none ↔ separator ∉ text := by
  induction text with
  | nil => simp [cutAt]
  | cons c text ih =>
      by_cases same : c = separator
      · simp [cutAt, same]
      · simp [cutAt, same, ih, Ne.symm same]

theorem cutAt_eq_some_iff {separator : Char} {text left right : Text} :
    cutAt separator text = some (left, right) ↔
      text = left ++ separator :: right ∧ separator ∉ left := by
  induction text generalizing left with
  | nil => simp [cutAt]
  | cons c text ih =>
      by_cases same : c = separator
      · subst same
        cases left with
        | nil => simp [cutAt, eq_comm]
        | cons d left =>
            simp only [cutAt, beq_self_eq_true, if_true, Option.some.injEq, Prod.mk.injEq,
              List.cons_append, List.cons.injEq, List.mem_cons, not_or]
            constructor
            · rintro ⟨empty, -⟩
              cases empty
            · rintro ⟨⟨rfl, -⟩, other, -⟩
              exact absurd rfl other
      · cases left with
        | nil => simp [cutAt, same]
        | cons d left =>
            have further : cutAt separator (c :: text) =
                (cutAt separator text).map fun cut => (c :: cut.1, cut.2) := by
              simp [cutAt, same]
            rw [further, Option.map_eq_some_iff]
            constructor
            · rintro ⟨⟨left', right'⟩, inner, made⟩
              cases made
              obtain ⟨rfl, absent⟩ := ih.mp inner
              refine ⟨rfl, ?_⟩
              simp [Ne.symm same, absent]
            · rintro ⟨whole, absent⟩
              rw [List.cons_append, List.cons.injEq] at whole
              obtain ⟨rfl, rfl⟩ := whole
              exact ⟨(left, right), ih.mpr ⟨rfl, fun member =>
                absent (List.mem_cons_of_mem _ member)⟩, rfl⟩

/-! ### Lists of names -/

theorem mem_addNames {names more : List Text} {name : Text} :
    name ∈ addNames names more ↔ name ∈ names ∨ name ∈ more := by
  unfold addNames
  induction more generalizing names with
  | nil => simp
  | cons other more ih =>
      rw [List.foldl_cons, ih, List.mem_cons]
      split
      · rename_i known
        rw [List.contains_iff_mem] at known
        constructor
        · rintro (there | there)
          · exact .inl there
          · exact .inr (.inr there)
        · rintro (there | rfl | there)
          · exact .inl there
          · exact .inl known
          · exact .inr there
      · rw [List.mem_append, List.mem_singleton, or_assoc]

/-- The names that are collected from a list are those of its members. -/
theorem mem_foldl_addNames {α : Type} (namesOf : α → List Text) {members : List α}
    {start : List Text} {name : Text} :
    name ∈ members.foldl (fun names member => addNames names (namesOf member)) start ↔
      name ∈ start ∨ ∃ member ∈ members, name ∈ namesOf member := by
  induction members generalizing start with
  | nil => simp
  | cons member members ih =>
      rw [List.foldl_cons, ih, mem_addNames, or_assoc]
      simp

/-! ### Trimming -/

variable {p : Char → Bool} {text : Text}

theorem dropWhile_eq_self (kept : ∀ c ∈ text.head?, p c = false) : text.dropWhile p = text := by
  cases text with
  | nil => rfl
  | cons c text => exact List.dropWhile_cons_of_neg (by simpa using kept c rfl)

theorem dropEndWhile_eq_self (kept : ∀ c ∈ text.getLast?, p c = false) :
    dropEndWhile p text = text := by
  rw [dropEndWhile, dropWhile_eq_self, List.reverse_reverse]
  rwa [List.head?_reverse]

theorem dropEndWhile_concat_of_pos {c : Char} (dropped : p c) :
    dropEndWhile p (text ++ [c]) = dropEndWhile p text := by
  rw [dropEndWhile, List.reverse_concat, List.dropWhile_cons_of_pos dropped, dropEndWhile]

theorem head?_dropWhile : ∀ c ∈ (text.dropWhile p).head?, p c = false := by
  intro c first
  have stops := List.head?_dropWhile_not p text
  rw [Option.mem_def.mp first] at stops
  exact stops

theorem getLast?_dropEndWhile : ∀ c ∈ (dropEndWhile p text).getLast?, p c = false := by
  intro c last
  rw [dropEndWhile, List.getLast?_reverse] at last
  exact head?_dropWhile c last

/-- What is dropped at the end of two texts is dropped from the second, and from the first only if
nothing of the second is left. -/
theorem dropEndWhile_append_eq (p : Char → Bool) (left right : Text) :
    dropEndWhile p (left ++ right) =
      if dropEndWhile p right = [] then dropEndWhile p left else left ++ dropEndWhile p right := by
  simp only [dropEndWhile, List.reverse_append, List.dropWhile_append, List.isEmpty_iff,
    List.reverse_eq_nil_iff]
  split
  · rfl
  · rw [List.reverse_append, List.reverse_reverse]

theorem dropEndWhile_prefix (p : Char → Bool) (text : Text) : dropEndWhile p text <+: text := by
  have dropped := List.dropWhile_suffix p (l := text.reverse)
  rwa [← List.reverse_prefix, List.reverse_reverse] at dropped

theorem head?_of_prefix {short long : Text} (leads : short <+: long) (filled : short ≠ []) :
    short.head? = long.head? := by
  obtain ⟨rest, rfl⟩ := leads
  cases short with
  | nil => exact absurd rfl filled
  | cons c short => rfl

theorem isBlankText_append (left right : Text) :
    isBlankText (left ++ right) = (left.isBlankText && right.isBlankText) :=
  List.all_append

theorem isBlankText_of_subset {part : Text} (within : part ⊆ text) (blank : text.isBlankText) :
    part.isBlankText :=
  List.all_eq_true.mpr fun c member => List.all_eq_true.mp blank c (within member)

theorem isBlankText_eq_false_of_subset {part : Text} (within : part ⊆ text)
    (filled : part.isBlankText = false) : text.isBlankText = false :=
  Bool.eq_false_iff.mpr (mt (isBlankText_of_subset within) (Bool.eq_false_iff.mp filled))

theorem not_mem_of_isBlankText {c : Char} (letter : isBlank c = false) (blank : text.isBlankText) :
    c ∉ text := by
  intro member
  rw [List.all_eq_true.mp blank c member] at letter
  cases letter

theorem trimStart_eq_nil_iff : text.trimStart = [] ↔ text.isBlankText :=
  List.dropWhile_eq_nil_iff.trans List.all_eq_true.symm

theorem trimEnd_eq_nil_iff : text.trimEnd = [] ↔ text.isBlankText := by
  rw [trimEnd, dropEndWhile, List.reverse_eq_nil_iff, List.dropWhile_eq_nil_iff, isBlankText,
    List.all_eq_true]
  simp only [List.mem_reverse]

theorem trimEnd_append_blank (text : Text) {blanks : Text} (blank : blanks.isBlankText) :
    trimEnd (text ++ blanks) = text.trimEnd := by
  have none : dropEndWhile isBlank blanks = [] := trimEnd_eq_nil_iff.mpr blank
  rw [trimEnd, dropEndWhile_append_eq, if_pos none]
  rfl

theorem trimStart_append_blank (text : Text) {blanks : Text} (blank : blanks.isBlankText) :
    trimStart (text ++ blanks) = if text.trimStart = [] then [] else text.trimStart ++ blanks := by
  have none : List.dropWhile isBlank blanks = [] := trimStart_eq_nil_iff.mpr blank
  rw [trimStart, List.dropWhile_append, none]
  simp only [List.isEmpty_iff]
  rfl

theorem trim_append_blank (text : Text) {blanks : Text} (blank : blanks.isBlankText) :
    trim (text ++ blanks) = text.trim := by
  rw [trim, trimStart_append_blank text blank]
  split
  · rename_i none
    rw [trim, none]
  · exact trimEnd_append_blank _ blank

theorem exists_trimEnd (text : Text) : ∃ blanks, isBlankText blanks ∧ text = text.trimEnd ++ blanks := by
  refine ⟨(text.reverse.takeWhile isBlank).reverse, ?_, ?_⟩
  · rw [isBlankText, List.all_reverse]
    exact List.all_takeWhile
  · rw [trimEnd, dropEndWhile, ← List.reverse_append, List.takeWhile_append_dropWhile,
      List.reverse_reverse]

theorem trim_trimStart (text : Text) : text.trimStart.trim = text.trim :=
  congrArg trimEnd (dropWhile_eq_self head?_dropWhile)

theorem trim_trimEnd (text : Text) : text.trimEnd.trim = text.trim := by
  obtain ⟨blanks, blank, whole⟩ := text.exists_trimEnd
  have same := trim_append_blank text.trimEnd blank
  rw [← whole] at same
  exact same.symm

theorem trim_trim (text : Text) : text.trim.trim = text.trim :=
  (trim_trimEnd text.trimStart).trans (trim_trimStart text)

theorem trim_blank_append {blanks : Text} (blank : blanks.isBlankText) (text : Text) :
    trim (blanks ++ text) = text.trim := by
  rw [trim, trimStart, List.dropWhile_append_of_pos (List.all_eq_true.mp blank)]
  rfl

/-- Blanks around a text are trimmed off. -/
theorem trim_padded {front back : Text} (blankFront : front.isBlankText) (blankBack : back.isBlankText)
    (text : Text) : trim (front ++ (text ++ back)) = text.trim := by
  rw [trim_blank_append blankFront, trim_append_blank text blankBack]

theorem exists_trim (text : Text) : ∃ front back : Text, front.isBlankText ∧ back.isBlankText ∧
    text = front ++ (text.trim ++ back) := by
  obtain ⟨back, blankBack, ends⟩ := text.trimStart.exists_trimEnd
  refine ⟨text.takeWhile isBlank, back, List.all_takeWhile, blankBack, ?_⟩
  exact List.takeWhile_append_dropWhile.symm.trans (congrArg (text.takeWhile isBlank ++ ·) ends)

/-- What is trimmed off two texts is trimmed off the ends, if neither is blank. -/
theorem trim_append {left right : Text} (filledLeft : ¬left.isBlankText)
    (filledRight : ¬right.isBlankText) : trim (left ++ right) = left.trimStart ++ right.trimEnd := by
  have first : left.dropWhile isBlank ≠ [] := mt trimStart_eq_nil_iff.mp filledLeft
  have last : dropEndWhile isBlank right ≠ [] := mt trimEnd_eq_nil_iff.mp filledRight
  rw [trim, trimStart, List.dropWhile_append, if_neg (by simpa using first), trimEnd, dropEndWhile_append_eq,
    if_neg last]
  rfl

/-- Nothing is trimmed off the text. -/
structure Trimmed (text : Text) : Prop where
  filled : text ≠ []
  first : ∀ c ∈ text.head?, isBlank c = false
  last : ∀ c ∈ text.getLast?, isBlank c = false

theorem Trimmed.trim (trimmed : text.Trimmed) : text.trim = text := by
  rw [Text.trim, trimStart, dropWhile_eq_self trimmed.first, trimEnd,
    dropEndWhile_eq_self trimmed.last]

theorem Trimmed.append_semicolon (trimmed : text.Trimmed) : (text ++ [';']).Trimmed where
  filled := by simp
  first := by
    rw [← head?_of_prefix (List.prefix_append text [';']) trimmed.filled]
    exact trimmed.first
  last := by
    rw [List.getLast?_concat]
    rintro c ⟨⟩
    decide

end Text

end MissionScript
