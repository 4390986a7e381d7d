import MissionScript.Proofs.Bracket.Even
import MissionScript.Proofs.Renaming.Condition

/-!
# Parentheses around a text

The parentheses around a whole text are taken off, one pair after the other, and the blanks around them. What
is left is the text that they were put around, unless it is itself a group. A text with a character outside
all groups is no group, also where it starts and ends with a parenthesis.
-/

namespace MissionScript

/-- A text in any number of parentheses, with blanks on either side of each and of the text. -/
inductive Text.InParens (inner : Text) : Text → Prop
  | bare {front back : Text} (blankFront : front.isBlankText) (blankBack : back.isBlankText) :
      InParens inner (front ++ (inner ++ back))
  | parens {text front back : Text} (within : InParens inner text) (blankFront : front.isBlankText)
      (blankBack : back.isBlankText) : InParens inner (front ++ '(' :: (text ++ ')' :: back))

namespace Text

variable {text inner : Text}

namespace InParens

theorem refl (text : Text) : InParens text text := by
  simpa using @InParens.bare text [] [] rfl rfl

theorem isEven (within : InParens inner text) (even : inner.IsEven) : text.IsEven := by
  induction within with
  | bare blankFront blankBack =>
      exact (IsEven.of_isBlankText blankFront).append (even.append (.of_isBlankText blankBack))
  | parens _ blankFront blankBack ih => exact ih.padded_parens blankFront blankBack

/-- Nothing but blanks and parentheses is put around the text. -/
theorem forall_mem {p : Char → Prop} (within : InParens inner text) (inside : ∀ c ∈ inner, p c)
    (blank : ∀ c, isBlank c → p c) (opening : p '(') (closing : p ')') : ∀ c ∈ text, p c := by
  have blanks {text : Text} (isBlank : text.isBlankText) : ∀ c ∈ text, p c :=
    fun c member => blank c (List.all_eq_true.mp isBlank c member)
  induction within with
  | bare blankFront blankBack =>
      exact List.forall_mem_append.mpr
        ⟨blanks blankFront, List.forall_mem_append.mpr ⟨inside, blanks blankBack⟩⟩
  | parens _ blankFront blankBack ih =>
      refine List.forall_mem_append.mpr ⟨blanks blankFront, List.forall_mem_cons.mpr ⟨opening, ?_⟩⟩
      exact List.forall_mem_append.mpr ⟨ih, List.forall_mem_cons.mpr ⟨closing, blanks blankBack⟩⟩

/-- Every character of the text is still there. -/
theorem subset (within : InParens inner text) : inner ⊆ text := by
  induction within with
  | bare => exact fun c member => List.mem_append_right _ (List.mem_append_left _ member)
  | parens _ _ _ ih =>
      intro c member
      exact List.mem_append_right _ (List.mem_cons_of_mem _ (List.mem_append_left _ (ih member)))

end InParens

end Text

/-! ### Taking parentheses off -/

section Strip

variable {text text' inner front back : Text}

/-- Blanks around the text do not matter. -/
theorem stripParens_of_trim_eq (same : text.trim = text'.trim) : stripParens text = stripParens text' := by
  rw [stripParens, stripParens, same]

theorem stripParens_trim (text : Text) : stripParens text.trim = stripParens text :=
  stripParens_of_trim_eq (Text.trim_trim text)

/-- A pair of parentheses around an even text is taken off. -/
theorem stripParens_parens (even : inner.IsEven) (blankFront : front.isBlankText)
    (blankBack : back.isBlankText) :
    stripParens (front ++ '(' :: (inner ++ ')' :: back)) = stripParens inner := by
  have shape : '(' :: (inner ++ ')' :: back) = '(' :: (inner ++ [')']) ++ back := by simp
  have trimmed : Text.trim (front ++ '(' :: (inner ++ ')' :: back)) = '(' :: (inner ++ [')']) := by
    rw [shape, Text.trim_padded blankFront blankBack]
    exact (Bracket.paren.trimmed_enclosed inner).trim
  obtain ⟨group, found, outer, content⟩ := Bracket.scan_enclosed even.isComplete .paren
  have found' : Bracket.paren.scan (Text.trim (front ++ '(' :: (inner ++ ')' :: back))) 0 =
      .matched group := by
    rw [trimmed]
    exact found
  rw [stripParens_of_scan found', if_pos outer, content]

theorem Text.InParens.stripParens (within : inner.InParens text) (even : inner.IsEven) :
    MissionScript.stripParens text = MissionScript.stripParens inner := by
  induction within with
  | bare blankFront blankBack => exact stripParens_of_trim_eq (Text.trim_padded blankFront blankBack inner)
  | parens within blankFront blankBack ih =>
      rw [stripParens_parens (within.isEven even) blankFront blankBack, ih]

/-- A text with a character outside all groups is no group. -/
theorem stripParens_eq_trim (even : text.IsEven) {g : Glyph} (member : g ∈ text.glyphs) (top : g.isTop)
    (filled : isBlank g.char = false) : stripParens text = text.trim := by
  have balanced : checkBalance text.trim = .ok () := by
    rw [checkBalance_eq_ok_iff, Text.marks_trim]
    exact checkBalance_eq_ok_iff.mp even.isComplete.balanced
  have within : g ∈ text.trim.glyphs := by
    obtain ⟨front, back, blankFront, blankBack, split⟩ := exists_glyphs_trim text
    rw [split, List.mem_append, List.mem_append] at member
    rcases member with (front | within) | back
    · exact absurd rfl (ne_of_isBlank (blankFront g front) filled)
    · exact within
    · exact absurd rfl (ne_of_isBlank (blankBack g back) filled)
  by_cases found : ∃ group, Bracket.paren.scan text.trim 0 = .matched group
  · obtain ⟨group, found⟩ := found
    rw [stripParens_of_scan found, if_neg]
    intro outer
    obtain ⟨blankBefore, blankAfter⟩ := Bool.and_eq_true_iff.mp outer
    have blank {gs : List Glyph} (isBlank : (Text.ofGlyphs gs).isBlankText) (among : g ∈ gs) : False := by
      have holds := List.all_eq_true.mp isBlank g.char (List.mem_map_of_mem among)
      rw [filled] at holds
      cases holds
    rcases isTop_of_scan balanced found g within top with before | after
    · exact blank blankBefore before
    · exact blank blankAfter after
  · exact stripParens_of_no_group (not_exists.mp found)

/-- No parentheses around the whole hold a symbol between even texts. -/
theorem stripParens_symbol {left symbol right : Text} (first : left.IsEven) (isSymbol : symbol.IsSymbol)
    (second : right.IsEven) :
    stripParens (left ++ (symbol ++ right)) = Text.trim (left ++ (symbol ++ right)) := by
  have even := first.append_symbol isSymbol second
  obtain ⟨c, tail, rfl, glyphs⟩ := first.glyphs_append_symbol isSymbol second
  have top := isTop_of_isFlat (isSymbol.flat c (List.mem_cons_self ..))
  refine stripParens_eq_trim even ?_ top (isSymbol.unblank c (List.mem_cons_self ..))
  rw [glyphs]
  exact List.mem_append_right _ (List.mem_cons_self ..)

/-- Either a pair of parentheses is taken off, or nothing but the blanks is. -/
theorem stripParens_cases (text : Text) :
    stripParens text = text.trim ∨ ∃ inner front back : Text, inner.length < text.length ∧
      front.isBlankText ∧ back.isBlankText ∧ text = front ++ '(' :: (inner ++ ')' :: back) ∧
        stripParens text = stripParens inner := by
  by_cases found : ∃ group, Bracket.paren.scan text.trim 0 = .matched group
  · obtain ⟨group, found⟩ := found
    rw [stripParens_of_scan found]
    split
    · rename_i outer
      obtain ⟨front, back, blankFront, blankBack, whole⟩ := text.exists_trim
      obtain ⟨blankBefore, blankAfter⟩ := Bool.and_eq_true_iff.mp outer
      have shorter := Bracket.length_content_of_scan found
      refine .inr ⟨group.content, front ++ Text.ofGlyphs group.before, Text.ofGlyphs group.after ++ back,
        Nat.lt_of_lt_of_le shorter text.length_trim_le, ?_, ?_, ?_, rfl⟩
      · rw [Text.isBlankText_append, blankFront, blankBefore]
        rfl
      · rw [Text.isBlankText_append, blankBack, blankAfter]
        rfl
      · rw [text_of_scan found] at whole
        simpa [Bracket.opening, Bracket.closing] using whole
    · exact .inl rfl
  · exact .inl (stripParens_of_no_group (not_exists.mp found))

/-- What is left of a text stands in parentheses in it. -/
theorem inParens_stripParens (text : Text) : (stripParens text).InParens text := by
  induction length : text.length using Nat.strongRecOn generalizing text with
  | ind n ih =>
      subst length
      rcases stripParens_cases text with same | ⟨inner, _, _, shorter, blankFront, blankBack, whole, same⟩
      · obtain ⟨front, back, blankFront, blankBack, whole⟩ := text.exists_trim
        have bare := @Text.InParens.bare text.trim front back blankFront blankBack
        rwa [← whole, ← same] at bare
      · have within := (ih inner.length shorter inner rfl).parens blankFront blankBack
        rwa [← whole, ← same] at within

theorem stripParens_stripParens (text : Text) : stripParens (stripParens text) = stripParens text := by
  induction length : text.length using Nat.strongRecOn generalizing text with
  | ind n ih =>
      subst length
      rcases stripParens_cases text with same | ⟨inner, -, -, shorter, -, -, -, same⟩
      · rw [same, stripParens_trim, same]
      · rw [same, ih inner.length shorter inner rfl]

end Strip

end MissionScript
