import MissionScript.Proofs.Bracket.Subscript
import MissionScript.Proofs.Script.Idempotence
import MissionScript.Proofs.Script.Separation

/-!
# Even texts

A text without quotes whose only brackets are parentheses is even if the count of open groups comes back to
where it was, wherever it started. What stands behind an even text is read as if it stood alone, and the
parentheses of an even text are matched within it.
-/

namespace MissionScript

/-- A text without quotes, with no other brackets than parentheses, which closes what it opens. -/
structure Text.IsEven (text : Text) : Prop where
  chars : ∀ c ∈ text, isFlat c ∨ c = '(' ∨ c = ')'
  level : ∀ depth, text.foldl depthAfter depth = depth

/-- A text that marks a place between others: it has no quotes, no brackets and no blanks. -/
structure Text.IsSymbol (symbol : Text) : Prop where
  filled : symbol ≠ []
  flat : symbol.IsFlat
  unblank : ∀ c ∈ symbol, isBlank c = false

namespace Text.IsEven

variable {text left right symbol front back : Text} {c : Char}

theorem append (first : IsEven left) (second : IsEven right) : IsEven (left ++ right) where
  chars := List.forall_mem_append.mpr ⟨first.chars, second.chars⟩
  level depth := by rw [List.foldl_append, first.level, second.level]

theorem of_isFlat (flat : text.IsFlat) : IsEven text where
  chars c member := .inl (flat c member)
  level := flat.level

theorem append_symbol (first : IsEven left) (isSymbol : symbol.IsSymbol) (second : IsEven right) :
    IsEven (left ++ (symbol ++ right)) :=
  first.append ((of_isFlat isSymbol.flat).append second)

theorem of_isBlankText (blank : text.isBlankText) : IsEven text := .of_isFlat (.of_isBlankText blank)

theorem parens (inside : IsEven text) : IsEven ('(' :: (text ++ [')'])) where
  chars := by
    refine List.forall_mem_cons.mpr ⟨.inr (.inl rfl), List.forall_mem_append.mpr ⟨inside.chars, ?_⟩⟩
    exact List.forall_mem_singleton.mpr (.inr (.inr rfl))
  level depth := by
    rw [List.foldl_cons, List.foldl_append, inside.level]
    rfl

/-- Parentheses with blanks around them. -/
theorem padded_parens (inside : IsEven text) (blankFront : front.isBlankText) (blankBack : back.isBlankText) :
    IsEven (front ++ '(' :: (text ++ ')' :: back)) := by
  have group := inside.parens.append (.of_isBlankText blankBack)
  have shape : '(' :: (text ++ ')' :: back) = '(' :: (text ++ [')']) ++ back := by simp
  rw [shape]
  exact (of_isBlankText blankFront).append group

theorem not_mem (even : IsEven text) (other : isFlat c = false ∧ c ≠ '(' ∧ c ≠ ')') : c ∉ text := by
  intro member
  rcases even.chars c member with flat | same | same
  · rw [other.1] at flat
    cases flat
  · exact other.2.1 same
  · exact other.2.2 same

theorem unquoted (even : IsEven text) : '\'' ∉ text := even.not_mem (by decide)

/-! ### Reading an even text -/

/-- Back at no open groups from the open parentheses, and back at one from one more, the count has never been
stopped at zero: every closing parenthesis has its match. -/
theorem wordFault_of_level (chars : ∀ c ∈ text, isFlat c ∨ c = '(' ∨ c = ')') {opened : Nat}
    (closed : text.foldl depthAfter opened = 0) (further : text.foldl depthAfter (opened + 1) = 1)
    (depth : Nat) :
    wordFault (List.replicate opened .paren) (marksOf (unquotedFrom depth text)) = none := by
  induction text generalizing opened depth with
  | nil =>
      obtain rfl : opened = 0 := closed
      rfl
  | cons c text ih =>
      obtain ⟨here, others⟩ := List.forall_mem_cons.mp chars
      rw [List.foldl_cons] at closed further
      rw [unquotedFrom, marksOf_cons]
      rcases here with flat | rfl | rfl
      · rw [depthAfter_of_isFlat flat] at closed further
        simp only [isFlat, Bool.and_eq_true, Option.isNone_iff_eq_none] at flat
        have plain : Glyph.mark? ⟨c, false, depth⟩ = none := flat.2
        rw [plain]
        exact ih others closed further _
      · exact (wordFault_opening _ .paren _).trans (@ih others (opened + 1) closed further _)
      · cases opened with
        | zero => exact absurd (closed.symm.trans further) Nat.zero_ne_one
        | succ opened => exact (wordFault_closing .paren _ _).trans (ih others closed further _)

theorem isComplete (even : IsEven text) : text.IsComplete where
  balanced := by
    have sound := wordFault_of_level even.chars (even.level 0) (even.level 1) 0
    rw [← glyphs_eq_unquotedFrom even.unquoted] at sound
    exact checkBalance_eq_ok_iff.mpr (wordFault_eq_none_iff.mp sound)
  closed := Literal.inside_foldl even.unquoted

/-- What stands behind an even text is read as if it stood alone. -/
theorem glyphs_append (even : IsEven left) (unquoted : '\'' ∉ right) :
    Text.glyphs (left ++ right) = left.glyphs ++ right.glyphs := by
  have both : '\'' ∉ left ++ right := by simp [even.unquoted, unquoted]
  rw [glyphs_eq_unquotedFrom both, glyphs_eq_unquotedFrom even.unquoted, glyphs_eq_unquotedFrom unquoted,
    unquotedFrom_append, even.level]

/-- A character between even texts stands outside all groups. -/
theorem glyphs_append_cons (first : IsEven left) (flat : isFlat c) (second : IsEven right) :
    Text.glyphs (left ++ c :: right) = left.glyphs ++ ⟨c, false, 0⟩ :: right.glyphs := by
  have unquoted : '\'' ∉ c :: right := by
    have single : IsEven [c] := of_isFlat (List.forall_mem_singleton.mpr flat)
    exact (single.append second).unquoted
  rw [first.glyphs_append unquoted, glyphs_eq_unquotedFrom unquoted, unquotedFrom,
    depthAfter_of_isFlat flat, glyphs_eq_unquotedFrom second.unquoted]

/-- The first character of a symbol between even texts stands outside all groups. -/
theorem glyphs_append_symbol (first : IsEven left) (isSymbol : symbol.IsSymbol) (second : IsEven right) :
    ∃ c tail, symbol = c :: tail ∧ Text.glyphs (left ++ (symbol ++ right)) =
      left.glyphs ++ ⟨c, false, 0⟩ :: Text.glyphs (tail ++ right) := by
  obtain ⟨c, tail, rfl⟩ := List.exists_cons_of_ne_nil isSymbol.filled
  obtain ⟨here, others⟩ := List.forall_mem_cons.mp isSymbol.flat
  have behind : IsEven (tail ++ right) := (of_isFlat others).append second
  exact ⟨c, tail, rfl, first.glyphs_append_cons here behind⟩

end Text.IsEven

theorem isTop_of_isFlat {c : Char} (flat : isFlat c) : Glyph.isTop ⟨c, false, 0⟩ := by
  simp only [isFlat, Bool.and_eq_true, Option.isNone_iff_eq_none] at flat
  exact Glyph.isTop_iff.mpr ⟨rfl, rfl, flat.2⟩

/-- What stands outside all groups is in no group that a scan finds. -/
theorem isTop_of_scan {text : Text} {b : Bracket} {group : Group} (balanced : checkBalance text = .ok ())
    (found : b.scan text 0 = .matched group) :
    ∀ g ∈ text.glyphs, g.isTop → g ∈ group.before ∨ g ∈ group.after := by
  have scans := b.scans_scanGlyphs 0 text.glyphs
  rw [show b.scanGlyphs 0 text.glyphs = _ from found] at scans
  cases scans with
  | @matched before inside after opening closing split whole opens closes ends =>
      have nested := nested_of_checkBalance balanced
      rw [whole] at nested
      obtain ⟨outer, nested⟩ := nested.exists_of_append
      have within := (nested.closes opens ends).not_isTop opens
      intro g member top
      rw [whole, List.mem_append, ← List.cons_append, List.append_cons, List.mem_append] at member
      rcases member with front | member | back
      · exact .inl front
      · exact absurd top (within g (by simpa using member))
      · exact .inr back

end MissionScript
