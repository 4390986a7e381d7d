import MissionScript.Proofs.Bracket.Nested
import MissionScript.Proofs.Bracket.Part
import MissionScript.Proofs.Script.Conservation
import MissionScript.Proofs.Script.Pieces

/-!
# Separating what was joined

Tokens that close what they open and end outside literals can be put behind one another: each is read as if it
stood alone. So the bracket in front of a list of such tokens is closed by the one behind it, and the commas
between them are the only ones that stand outside groups.
-/

namespace MissionScript

/-! ### Texts that stand on their own -/

/-- A text after which reading goes on outside groups and literals. -/
structure Text.IsComplete (text : Text) : Prop where
  balanced : checkBalance text = .ok ()
  closed : IsClosed text

/-- A token of a list: trimmed, complete, and without a comma outside its groups and literals. -/
structure Text.IsEntry (text : Text) : Prop extends text.IsComplete where
  trimmed : text.Trimmed
  solid : ∀ g ∈ text.glyphs, g.isFree → g.depth = 0 → g.char ≠ ','

theorem Text.isEntry_iff {text : Text} : text.IsEntry ↔
    (checkBalance text = .ok () ∧ IsClosed text) ∧
      (text ≠ [] ∧ text.head?.all (!isBlank ·) ∧ text.getLast?.all (!isBlank ·)) ∧
        ∀ g ∈ text.glyphs, g.isFree → g.depth = 0 → g.char ≠ ',' := by
  simp only [Option.all_eq_true, Bool.not_eq_true']
  constructor
  · intro entry
    exact ⟨⟨entry.balanced, entry.closed⟩, ⟨entry.trimmed.filled, entry.trimmed.first, entry.trimmed.last⟩,
      entry.solid⟩
  · intro ⟨⟨balanced, closed⟩, ⟨filled, first, last⟩, solid⟩
    exact ⟨⟨balanced, closed⟩, ⟨filled, first, last⟩, solid⟩

instance (text : Text) : Decidable text.IsEntry := decidable_of_iff _ Text.isEntry_iff.symm

/-- The tokens with a comma and a space between them. -/
def Text.listed (tokens : List Text) : Text := [',', ' '].intercalate tokens

namespace Text

variable {left right token : Text} {tokens : List Text}

theorem listed_cons_cons (token next : Text) (tokens : List Text) :
    listed (token :: next :: tokens) = token ++ ',' :: ' ' :: listed (next :: tokens) := by
  rw [listed, List.intercalate_cons_cons, List.append_assoc]
  rfl

theorem IsComplete.sound (complete : left.IsComplete) : wordFault [] (marksOf left.glyphs) = none :=
  wordFault_eq_none_iff.mpr (checkBalance_eq_ok_iff.mp complete.balanced)

theorem IsComplete.alike (complete : left.IsComplete) :
    (Literal.ofText (left ++ [',', ' '])).Alike {} := by
  have closed : IsClosed (left ++ [',']) := (isClosed_append (by decide)).mpr complete.closed
  have alike := alike_concat closed (.inl rfl)
  rwa [List.append_assoc] at alike

/-- What stands behind a complete text, a comma and a space is read as if it stood alone. -/
theorem IsComplete.glyphs_comma (complete : left.IsComplete) (right : Text) :
    glyphs (left ++ ',' :: ' ' :: right) =
      left.glyphs ++ ⟨',', false, 0⟩ :: ⟨' ', false, 0⟩ :: right.glyphs := by
  have free : (Literal.ofText left).inside = false := complete.closed
  have behind : glyphsFrom (Literal.ofText left) 0 (',' :: ' ' :: right) =
      ⟨',', false, 0⟩ :: ⟨' ', false, 0⟩ :: right.glyphs := by
    have alike := complete.alike
    rw [Literal.ofText_append] at alike
    have reading := glyphsFrom_alike alike 0 right
    simp only [List.foldl_cons, List.foldl_nil] at reading
    simp only [glyphsFrom, Literal.covers, Literal.step, free] at reading ⊢
    exact congrArg (_ :: _ :: ·) reading
  have split := @glyphsFrom_append_of_sound [] {} 0 left (',' :: ' ' :: right) complete.sound
  exact split.trans (congrArg (left.glyphs ++ ·) behind)

theorem IsComplete.nil : IsComplete [] := ⟨rfl, rfl⟩

theorem IsComplete.comma (first : left.IsComplete) (second : right.IsComplete) :
    IsComplete (left ++ ',' :: ' ' :: right) where
  balanced := by
    have marks : marks (left ++ ',' :: ' ' :: right) = left.marks ++ right.marks := by
      rw [Text.marks, first.glyphs_comma, marksOf_append]
      rfl
    rw [checkBalance_eq_ok_iff, marks]
    exact (checkBalance_eq_ok_iff.mp first.balanced).append (checkBalance_eq_ok_iff.mp second.balanced)
  closed := by
    have joined := (isClosed_append_of_alike first.alike right).mpr second.closed
    rwa [List.append_assoc] at joined

theorem isComplete_listed (complete : ∀ token ∈ tokens, IsComplete token) : (listed tokens).IsComplete := by
  induction tokens with
  | nil => exact .nil
  | cons token tokens ih =>
      obtain ⟨first, others⟩ := List.forall_mem_cons.mp complete
      cases tokens with
      | nil => simpa [listed] using first
      | cons next tokens =>
          rw [listed_cons_cons]
          exact first.comma (ih others)

end Text

/-! ### The group around a text -/

namespace Bracket

/-- A complete text in brackets is one group. -/
theorem glyphs_enclosed {inside : Text} (complete : inside.IsComplete) (b : Bracket) :
    ∃ gs, Text.glyphs (b.opening :: (inside ++ [b.closing])) =
        ⟨b.opening, false, 0⟩ :: (gs ++ [⟨b.closing, false, 1⟩]) ∧
      Text.ofGlyphs gs = inside ∧ wordFault [] (marksOf gs) = none := by
  have alike : Literal.Alike ⟨false, some b.opening⟩ {} := by cases b <;> exact ⟨rfl, rfl⟩
  have start : Text.glyphs (b.opening :: (inside ++ [b.closing])) = ⟨b.opening, false, 0⟩ ::
      glyphsFrom ⟨false, some b.opening⟩ 1 (inside ++ [b.closing]) := by
    cases b <;> rfl
  have sound : wordFault [] (marksOf (glyphsFrom ⟨false, some b.opening⟩ 1 inside)) = none := by
    rw [glyphsFrom_alike alike, marksOf_glyphsFrom {} 1 0]
    exact complete.sound
  have free : (inside.foldl Literal.step ⟨false, some b.opening⟩).covers b.closing = false := by
    have closed : (inside.foldl Literal.step ⟨false, some b.opening⟩).inside = false :=
      (Literal.alike_foldl alike inside).1.trans complete.closed
    rw [Literal.covers, closed]
    cases b <;> rfl
  have split := @glyphsFrom_append_of_sound [] _ 1 inside [b.closing] sound
  simp only [List.length_nil, Nat.add_zero, glyphsFrom, free] at split
  exact ⟨_, start.trans (congrArg (_ :: ·) split), Text.ofGlyphs_glyphsFrom .., sound⟩

theorem scan_enclosed {inside : Text} (complete : inside.IsComplete) (b : Bracket) :
    ∃ group, b.scan (b.opening :: (inside ++ [b.closing])) 0 = .matched group ∧ group.isOuter ∧
      group.content = inside := by
  obtain ⟨gs, glyphs, content, sound⟩ := glyphs_enclosed complete b
  have first (rest : List Glyph) :
      b.splitOpening 0 (⟨b.opening, false, 0⟩ :: rest) = some ([], rest) := by
    simp [splitOpening, opens_opening]
  have last := splitClosing_append sound b 0 [⟨b.closing, false, 1⟩]
  rw [splitClosing_closing [] (closes_closing b 1)] at last
  simp only [List.count_nil, Nat.add_zero, Option.map_some, List.append_nil] at last
  refine ⟨⟨[], gs, []⟩, ?_, rfl, content⟩
  simp only [scan, scanGlyphs, glyphs, first, last]

theorem trimmed_enclosed (b : Bracket) (inside : Text) :
    Text.Trimmed (b.opening :: (inside ++ [b.closing])) where
  filled := by simp
  first := by
    rintro c ⟨⟩
    cases b <;> rfl
  last := by
    rw [← List.cons_append, List.getLast?_concat]
    rintro c ⟨⟩
    cases b <;> rfl

end Bracket

/-! ### The tokens of a list -/

theorem tidy_modifyHead_of_isBlank {g : Glyph} (blank : isBlank g.char) (pieces : List (List Glyph)) :
    tidy (pieces.modifyHead (g :: ·)) = tidy pieces := by
  cases pieces with
  | nil => rfl
  | cons piece pieces =>
      have trimmed : Text.trim (g.char :: Text.ofGlyphs piece) = (Text.ofGlyphs piece).trim := by
        rw [Text.trim, Text.trim, Text.trimStart, List.dropWhile_cons_of_pos blank]
        rfl
      rw [List.modifyHead_cons, tidy_cons, tidy_cons, Text.ofGlyphs_cons, trimmed]

theorem splitTop_listed {tokens : List Text} (entries : ∀ token ∈ tokens, Text.IsEntry token) :
    splitTop (isDelimiter [',']) (Text.listed tokens) = tokens := by
  have comma (c : Char) : isDelimiter [','] c = (c == ',') := by
    simp [isDelimiter, Bool.beq_eq_decide_eq]
  have solid {token : Text} (entry : token.IsEntry) :
      ∀ g ∈ token.glyphs, (g.isTop && isDelimiter [','] g.char) = false := by
    intro g member
    apply Bool.eq_false_iff.mpr
    intro separates
    simp only [Glyph.isTop, comma, Bool.and_eq_true, beq_iff_eq] at separates
    exact entry.solid g member separates.1.1.1.1 separates.1.1.1.2 separates.2
  induction tokens with
  | nil => rfl
  | cons token tokens ih =>
      obtain ⟨entry, others⟩ := List.forall_mem_cons.mp entries
      cases tokens with
      | nil =>
          rw [Text.listed, List.intercalate_singleton, splitTop, List.splitOnP_eq_singleton (solid entry)]
          exact tidy_cons_of_trimmed entry.trimmed []
      | cons next tokens =>
          have rest := ih others
          rw [splitTop] at rest ⊢
          rw [Text.listed_cons_cons, entry.glyphs_comma,
            List.splitOnP_append_cons_of_forall_mem (solid entry) _ (by decide),
            tidy_cons_of_trimmed entry.trimmed, List.splitOnP_cons_eq_if_modifyHead, if_neg (by decide),
            tidy_modifyHead_of_isBlank (by decide), rest]

/-- A list in brackets is separated into the tokens that it was made of. -/
theorem separateGroup_listed (family : Bracket) {tokens : List Text}
    (entries : ∀ token ∈ tokens, Text.IsEntry token) :
    separateGroup family [','] true (family.opening :: (Text.listed tokens ++ [family.closing])) =
      .ok tokens := by
  have complete := Text.isComplete_listed fun token member => (entries token member).toIsComplete
  obtain ⟨group, found, outer, content⟩ := Bracket.scan_enclosed complete family
  rw [separateGroup, (family.trimmed_enclosed _).trim]
  simp only [found, outer, content, if_true, splitTop_listed entries]

/-- Commas and brackets within groups and literals stay where they are. -/
theorem separateGroup_listed_nested :
    (∀ token ∈ ["A = [1, 2]".toList, "'x, ('".toList, "f({a}, [b]')".toList], Text.IsEntry token) ∧
      separateGroup .square [','] true "[A = [1, 2], 'x, (', f({a}, [b]')]".toList =
        .ok ["A = [1, 2]".toList, "'x, ('".toList, "f({a}, [b]')".toList] := by
  have entries : ∀ token ∈ ["A = [1, 2]".toList, "'x, ('".toList, "f({a}, [b]')".toList],
      Text.IsEntry token := by
    decide
  exact ⟨entries, separateGroup_listed .square entries⟩

end MissionScript
