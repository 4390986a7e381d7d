import MissionScript.Proofs.Bracket.Steps
import MissionScript.Proofs.Bracket.Word

/-!
# Nested groups

In a text with balanced brackets the count of open groups at a place is the number of families that are open
there. A search for the bracket that closes a group counts one family only; where all three nest, it finds
the bracket that the group ends with.
-/

namespace MissionScript

/-- The glyphs of a text that goes on with these families open, the innermost first, and closes them. Every
glyph knows how many there are in front of it. -/
inductive Nested : List Bracket → List Glyph → Prop where
  | nil : Nested [] []
  | plain {opened : List Bracket} {g : Glyph} {rest : List Glyph} :
      g.mark? = none → g.depth = opened.length → Nested opened rest → Nested opened (g :: rest)
  | opening (b : Bracket) {opened : List Bracket} {g : Glyph} {rest : List Glyph} :
      g.mark? = some (.opening b) → g.depth = opened.length → Nested (b :: opened) rest →
        Nested opened (g :: rest)
  | closing (b : Bracket) {opened : List Bracket} {g : Glyph} {rest : List Glyph} :
      g.mark? = some (.closing b) → g.depth = opened.length + 1 → Nested opened rest →
        Nested (b :: opened) (g :: rest)

/-- The count of open groups after a glyph. -/
theorem depth_step (g : Glyph) (depth : Nat) :
    (if g.quoted then depth else depthAfter depth g.char) =
      match g.mark? with
      | none => depth
      | some (.opening _) => depth + 1
      | some (.closing _) => depth - 1 := by
  rw [Glyph.mark?, Mark.ofChar?, depthAfter, isOpening, isClosing]
  cases g.quoted with
  | true => rfl
  | false => cases Bracket.ofOpening? g.char <;> cases Bracket.ofClosing? g.char <;> rfl

theorem nested_glyphsFrom {opened : List Bracket} (p : Literal) (text : Text)
    (sound : wordFault opened (marksOf (glyphsFrom p opened.length text)) = none) :
    Nested opened (glyphsFrom p opened.length text) := by
  induction text generalizing p opened with
  | nil =>
      cases opened with
      | nil => exact .nil
      | cons b opened => cases sound
  | cons c text ih =>
      rw [glyphsFrom] at sound ⊢
      have step := depth_step ⟨c, p.covers c, opened.length⟩ opened.length
      dsimp only at step sound ⊢
      rw [step] at sound ⊢
      rw [marksOf_cons] at sound
      cases mark : Glyph.mark? ⟨c, p.covers c, opened.length⟩ with
      | none =>
          rw [mark] at sound
          exact .plain mark rfl (ih _ sound)
      | some m =>
          rw [mark] at sound
          cases m with
          | opening b =>
              refine .opening b mark rfl (ih _ ?_)
              rw [← wordFault_opening]
              exact sound
          | closing b =>
              cases opened with
              | nil => cases sound
              | cons innermost opened =>
                  by_cases same : innermost = b
                  · subst same
                    refine .closing innermost mark rfl (ih _ ?_)
                    rw [← wordFault_closing innermost]
                    exact sound
                  · have fails := (if_neg same).symm.trans sound
                    cases fails

/-- Behind a text that closes the groups of `opened` and every group that it opens, the count is what it was
in front of `opened`. -/
theorem glyphsFrom_append_of_sound {opened : List Bracket} (p : Literal) (depth : Nat) (left right : Text)
    (sound : wordFault opened (marksOf (glyphsFrom p (depth + opened.length) left)) = none) :
    glyphsFrom p (depth + opened.length) (left ++ right) =
      glyphsFrom p (depth + opened.length) left ++ glyphsFrom (left.foldl Literal.step p) depth right := by
  induction left generalizing p opened with
  | nil =>
      cases opened with
      | nil => rfl
      | cons b opened => cases sound
  | cons c left ih =>
      rw [List.cons_append, glyphsFrom, glyphsFrom]
      rw [glyphsFrom] at sound
      have step := depth_step ⟨c, p.covers c, depth + opened.length⟩ (depth + opened.length)
      dsimp only at step sound ⊢
      rw [step] at sound ⊢
      rw [marksOf_cons] at sound
      cases mark : Glyph.mark? ⟨c, p.covers c, depth + opened.length⟩ with
      | none =>
          rw [mark] at sound
          exact congrArg (_ :: ·) (ih _ sound)
      | some m =>
          rw [mark] at sound
          cases m with
          | opening b =>
              have further := (wordFault_opening opened b _).symm.trans sound
              exact congrArg (_ :: ·) (@ih (b :: opened) _ further)
          | closing b =>
              cases opened with
              | nil => cases sound
              | cons innermost opened =>
                  by_cases same : innermost = b
                  · subst same
                    have further := (wordFault_closing innermost opened _).symm.trans sound
                    exact congrArg (_ :: ·) (@ih opened _ further)
                  · have fails := (if_neg same).symm.trans sound
                    cases fails

theorem nested_of_checkBalance {text : Text} (balanced : checkBalance text = .ok ()) :
    Nested [] text.glyphs :=
  nested_glyphsFrom {} text (wordFault_eq_none_iff.mpr (checkBalance_eq_ok_iff.mp balanced))

theorem Bracket.splitClosing_of_mark? {b : Bracket} {g : Glyph} (opening : g.mark? ≠ some (.opening b))
    (closing : g.mark? ≠ some (.closing b)) (depth : Nat) (rest : List Glyph) :
    b.splitClosing depth (g :: rest) =
      (b.splitClosing depth rest).map fun (inside, after) => (g :: inside, after) :=
  splitClosing_other depth rest (Glyph.opens_eq_false opening) (Glyph.closes_eq_false closing)

/-- A group of the family `b` has been opened inside `outer`, and within it the groups of `inner`: its end,
as the count of its family finds it. -/
structure Closes (b : Bracket) (inner outer : List Bracket) (glyphs inside : List Glyph) (g : Glyph)
    (after : List Glyph) : Prop where
  found : b.splitClosing (inner.count b) glyphs = some (inside, after)
  glyphs_eq : glyphs = inside ++ g :: after
  closes : g.closes b
  level : g.depth = outer.length + 1
  deeper : ∀ h ∈ inside, outer.length < h.depth
  sound : wordFault inner (marksOf inside) = none
  behind : Nested outer after

namespace Closes

variable {b c : Bracket} {inner outer : List Bracket} {gs inside after : List Glyph} {g h : Glyph}

theorem here (mark : g.mark? = some (.closing b)) (level : g.depth = outer.length + 1)
    (behind : Nested outer gs) : Closes b [] outer (g :: gs) [] g gs where
  found := Bracket.splitClosing_closing gs (Glyph.mark?_closing.mp mark)
  glyphs_eq := rfl
  closes := Glyph.mark?_closing.mp mark
  level := level
  deeper := nofun
  sound := rfl
  behind := behind

/-- A glyph in front of a group that is open already: the search has to pass over it. -/
theorem cons {opened : List Bracket} (closes : Closes b opened outer gs inside h after)
    (level : outer.length < g.depth)
    (found : b.splitClosing (inner.count b) (g :: gs) = some (g :: inside, after))
    (sound : wordFault inner (marksOf (g :: inside)) = none) :
    Closes b inner outer (g :: gs) (g :: inside) h after where
  found := found
  glyphs_eq := congrArg (g :: ·) closes.glyphs_eq
  closes := closes.closes
  level := closes.level
  deeper := List.forall_mem_cons.mpr ⟨level, closes.deeper⟩
  sound := sound
  behind := closes.behind

theorem plain (closes : Closes b inner outer gs inside h after) (mark : g.mark? = none)
    (level : outer.length < g.depth) : Closes b inner outer (g :: gs) (g :: inside) h after := by
  refine closes.cons level ?_ ?_
  · rw [Bracket.splitClosing_of_mark? (by simp [mark]) (by simp [mark]), closes.found]
    rfl
  · rw [marksOf_cons, mark]
    exact closes.sound

theorem opening (closes : Closes b (c :: inner) outer gs inside h after)
    (mark : g.mark? = some (.opening c)) (level : outer.length < g.depth) :
    Closes b inner outer (g :: gs) (g :: inside) h after := by
  refine closes.cons level ?_ ?_
  · have found := closes.found
    by_cases same : c = b
    · subst same
      rw [List.count_cons_self] at found
      rw [Bracket.splitClosing_opening _ _ (Glyph.mark?_opening.mp mark), found]
      rfl
    · rw [List.count_cons_of_ne same] at found
      rw [Bracket.splitClosing_of_mark? (by simp [mark, same]) (by simp [mark]), found]
      rfl
  · rw [marksOf_cons, mark]
    exact (wordFault_opening inner c _).trans closes.sound

theorem closing (closes : Closes b inner outer gs inside h after)
    (mark : g.mark? = some (.closing c)) (level : outer.length < g.depth) :
    Closes b (c :: inner) outer (g :: gs) (g :: inside) h after := by
  refine closes.cons level ?_ ?_
  · by_cases same : c = b
    · subst same
      rw [List.count_cons_self, Bracket.splitClosing_inner _ _ (Glyph.mark?_closing.mp mark),
        closes.found]
      rfl
    · rw [List.count_cons_of_ne same, Bracket.splitClosing_of_mark? (by simp [mark]) (by simp [mark, same]),
        closes.found]
      rfl
  · rw [marksOf_cons, mark]
    exact (wordFault_closing c inner _).trans closes.sound

end Closes

namespace Bracket

/-- A search passes over glyphs that close the groups of `opened` and every group that they open. -/
theorem splitClosing_append {opened : List Bracket} {gs : List Glyph}
    (sound : wordFault opened (marksOf gs) = none) (b : Bracket) (depth : Nat) (rest : List Glyph) :
    b.splitClosing (depth + opened.count b) (gs ++ rest) =
      (b.splitClosing depth rest).map fun (inside, after) => (gs ++ inside, after) := by
  have extend {level : Nat} {g : Glyph} {gs : List Glyph}
      (behind : b.splitClosing level (gs ++ rest) =
        (b.splitClosing depth rest).map fun (inside, after) => (gs ++ inside, after)) :
      (b.splitClosing level (gs ++ rest)).map (fun (inside, after) => (g :: inside, after)) =
        (b.splitClosing depth rest).map fun (inside, after) => (g :: gs ++ inside, after) := by
    rw [behind, Option.map_map]
    rfl
  induction gs generalizing opened with
  | nil =>
      cases opened with
      | nil => simp
      | cons c opened => cases sound
  | cons g gs ih =>
      rw [marksOf_cons] at sound
      rw [List.cons_append]
      cases mark : g.mark? with
      | none =>
          rw [mark] at sound
          rw [splitClosing_of_mark? (by rw [mark]; nofun) (by rw [mark]; nofun)]
          exact extend (ih sound)
      | some m =>
          rw [mark] at sound
          cases m with
          | opening c =>
              have behind := ih ((wordFault_opening opened c _).symm.trans sound)
              by_cases same : c = b
              · subst same
                rw [splitClosing_opening _ _ (Glyph.mark?_opening.mp mark)]
                rw [List.count_cons_self, ← Nat.add_assoc] at behind
                exact extend behind
              · rw [splitClosing_of_mark? (by rw [mark]; simpa using same) (by rw [mark]; nofun)]
                rw [List.count_cons_of_ne same] at behind
                exact extend behind
          | closing c =>
              cases opened with
              | nil => cases sound
              | cons innermost opened =>
                  by_cases matched : innermost = c
                  · subst matched
                    have behind := ih ((wordFault_closing innermost opened _).symm.trans sound)
                    by_cases same : innermost = b
                    · subst same
                      rw [List.count_cons_self, ← Nat.add_assoc,
                        splitClosing_inner _ _ (Glyph.mark?_closing.mp mark)]
                      exact extend behind
                    · rw [List.count_cons_of_ne same,
                        splitClosing_of_mark? (by rw [mark]; nofun) (by rw [mark]; simpa using same)]
                      exact extend behind
                  · have fails := (if_neg matched).symm.trans sound
                    cases fails

end Bracket

namespace Nested

variable {b : Bracket} {opened inner outer : List Bracket} {gs rest inside after : List Glyph} {g h : Glyph}

/-- What follows within a nested text is nested again. -/
theorem exists_of_append {front : List Glyph} (nested : Nested opened (front ++ gs)) :
    ∃ others, Nested others gs := by
  induction front generalizing opened with
  | nil => exact ⟨opened, nested⟩
  | cons g front ih =>
      cases nested with
      | plain _ _ rest => exact ih rest
      | opening b _ _ rest => exact ih rest
      | closing b _ _ rest => exact ih rest

/-- A group that is open is closed. -/
theorem exists_closes (nested : Nested (inner ++ b :: outer) gs) :
    ∃ inside g after, Closes b inner outer gs inside g after := by
  generalize whole : inner ++ b :: outer = opened at nested
  induction nested generalizing inner with
  | nil => cases inner <;> cases whole
  | @plain opened g rest mark level _ ih =>
      subst whole
      obtain ⟨inside, h, after, closes⟩ := ih rfl
      exact ⟨g :: inside, h, after, closes.plain mark (by rw [level]; simp; omega)⟩
  | @opening c opened g rest mark level _ ih =>
      subst whole
      obtain ⟨inside, h, after, closes⟩ := ih (show (c :: inner) ++ b :: outer = _ from rfl)
      exact ⟨g :: inside, h, after, closes.opening mark (by rw [level]; simp; omega)⟩
  | @closing c opened g rest mark level behind ih =>
      cases inner with
      | nil =>
          cases whole
          exact ⟨[], g, rest, .here mark level behind⟩
      | cons d inner =>
          cases whole
          obtain ⟨inside, h, after, closes⟩ := ih rfl
          exact ⟨g :: inside, h, after, closes.closing mark (by rw [level]; simp; omega)⟩

theorem exists_tail (nested : Nested opened (g :: rest)) : ∃ others, Nested others rest := by
  have whole : Nested opened ([g] ++ rest) := nested
  exact whole.exists_of_append

/-- Behind an opening bracket its group is open. -/
theorem rest_of_opens (nested : Nested opened (g :: rest)) (opens : g.opens b) :
    Nested (b :: opened) rest := by
  have mark := Glyph.mark?_opening.mpr opens
  cases nested with
  | plain none =>
      rw [none] at mark
      cases mark
  | opening c opening _ behind =>
      rw [opening] at mark
      cases mark
      exact behind
  | closing c closing =>
      rw [closing] at mark
      cases mark

theorem level (nested : Nested opened (g :: rest)) : g.depth = opened.length := by
  cases nested with
  | plain _ level => exact level
  | opening _ _ level => exact level
  | closing _ _ level => exact level

/-- The group that an opening bracket starts is closed. -/
theorem splitClosing_ne_none (nested : Nested opened (g :: rest)) (opens : g.opens b) :
    b.splitClosing 0 rest ≠ none := by
  have behind : Nested ([] ++ b :: opened) rest := nested.rest_of_opens opens
  obtain ⟨inside, h, after, closes⟩ := behind.exists_closes
  exact fun none => Option.some_ne_none _ (closes.found.symm.trans none)

/-- The groups around it go on behind it. -/
theorem closes_of_splitClosing (nested : Nested opened (g :: rest)) (opens : g.opens b)
    (found : b.splitClosing 0 rest = some (inside, after)) :
    ∃ h, Closes b [] opened rest inside h after := by
  have behind : Nested ([] ++ b :: opened) rest := nested.rest_of_opens opens
  obtain ⟨inside', h, after', closes⟩ := behind.exists_closes
  cases closes.found.symm.trans found
  exact ⟨h, closes⟩

theorem closes (nested : Nested opened (g :: (inside ++ h :: after))) (opens : g.opens b)
    (found : b.splitClosing 0 (inside ++ h :: after) = some (inside, after)) :
    Closes b [] opened (inside ++ h :: after) inside h after := by
  obtain ⟨h', closes⟩ := nested.closes_of_splitClosing opens found
  cases List.append_cancel_left closes.glyphs_eq
  exact closes

end Nested

end MissionScript
