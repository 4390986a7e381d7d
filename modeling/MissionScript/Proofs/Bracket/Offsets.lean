import Mathlib.Order.Bounds.Basic
import MissionScript.Proofs.Bracket.Steps
import MissionScript.Proofs.Script.Literal

/-!
# Where a scan finds its group

The characters outside literals are counted by their byte offsets. From the first opening bracket on, the
opening brackets of the family minus its closing ones stay positive up to the end of the group, and there
they are zero for the first time.
-/

namespace MissionScript

/-! ### Glyphs and their offsets -/

theorem Text.bytes_ofGlyphs_cons (g : Glyph) (gs : List Glyph) :
    (ofGlyphs (g :: gs)).bytes = g.char.utf8Size + (ofGlyphs gs).bytes := rfl

/-- The glyphs with the byte offsets they stand at, the first one at `offset`. -/
def placedFrom : (offset : Nat) → List Glyph → List (Nat × Glyph)
  | _, [] => []
  | offset, g :: rest => (offset, g) :: placedFrom (offset + g.char.utf8Size) rest

theorem placedFrom_append (offset : Nat) (left right : List Glyph) :
    placedFrom offset (left ++ right) =
      placedFrom offset left ++ placedFrom (offset + (Text.ofGlyphs left).bytes) right := by
  induction left generalizing offset with
  | nil => rfl
  | cons g left ih =>
      rw [List.cons_append, placedFrom, placedFrom, ih, List.cons_append, Text.bytes_ofGlyphs_cons,
        Nat.add_assoc]

theorem bounds_of_mem_placedFrom {offset i : Nat} {gs : List Glyph} {g : Glyph}
    (member : (i, g) ∈ placedFrom offset gs) :
    offset ≤ i ∧ i < offset + (Text.ofGlyphs gs).bytes ∧ g ∈ gs := by
  induction gs generalizing offset with
  | nil => cases member
  | cons h gs ih =>
      have size := h.char.utf8Size_pos
      rw [Text.bytes_ofGlyphs_cons]
      rcases List.mem_cons.mp member with same | member
      · cases same
        exact ⟨le_rfl, by omega, List.mem_cons_self ..⟩
      · obtain ⟨above, below, within⟩ := ih member
        exact ⟨by omega, by omega, List.mem_cons_of_mem _ within⟩

theorem exists_mem_placedFrom (offset : Nat) {gs : List Glyph} {g : Glyph} (member : g ∈ gs) :
    ∃ i, (i, g) ∈ placedFrom offset gs := by
  obtain ⟨left, right, rfl⟩ := List.append_of_mem member
  refine ⟨offset + (Text.ofGlyphs left).bytes, ?_⟩
  rw [placedFrom_append]
  exact List.mem_append_right _ (List.mem_cons_self ..)

/-- A place of a text, with what stands in front of it and behind it. -/
theorem placedFrom_glyphs {text : Text} {left right : List Glyph} {g : Glyph}
    (whole : text.glyphs = left ++ g :: right) :
    placedFrom 0 text.glyphs = placedFrom 0 left ++ ((Text.ofGlyphs left).bytes, g) ::
      placedFrom ((Text.ofGlyphs left).bytes + g.char.utf8Size) right := by
  rw [whole, placedFrom_append, Nat.zero_add, placedFrom]

/-- The characters outside literals. -/
def outsideLiterals (placed : List (Nat × Glyph)) : List (Nat × Char) :=
  (placed.filter (·.2.isFree)).map fun (i, g) => (i, g.char)

theorem mem_outsideLiterals {placed : List (Nat × Glyph)} {i : Nat} {c : Char} :
    (i, c) ∈ outsideLiterals placed ↔ ∃ g, (i, g) ∈ placed ∧ g.isFree ∧ g.char = c := by
  simp [outsideLiterals, and_assoc]

theorem outsideLiterals_append (left right : List (Nat × Glyph)) :
    outsideLiterals (left ++ right) = outsideLiterals left ++ outsideLiterals right := by
  rw [outsideLiterals, List.filter_append, List.map_append]
  rfl

theorem outsideLiterals_cons (i : Nat) (g : Glyph) (placed : List (Nat × Glyph)) :
    outsideLiterals ((i, g) :: placed) =
      if g.isFree then (i, g.char) :: outsideLiterals placed else outsideLiterals placed := by
  rw [outsideLiterals, List.filter_cons]
  split <;> rfl

namespace Text

/-- The characters of a text outside its literals, with their byte offsets. -/
def free (text : Text) : List (Nat × Char) := outsideLiterals (placedFrom 0 text.glyphs)

/-- The characters outside literals from the offset `first` to the offset `last`. -/
def freeBetween (text : Text) (first last : Nat) : List (Nat × Char) :=
  text.free.filter fun (i, _) => first ≤ i && i ≤ last

/-- The offsets of the characters that are not blank. -/
def filled (text : Text) : Set Nat := {i | ∃ g, (i, g) ∈ placedFrom 0 text.glyphs ∧ !isBlank g.char}

end Text

namespace Bracket

variable {b : Bracket} {text : Text} {start depth : Nat} {before inside after gs rest : List Glyph}
  {g h : Glyph}

/-! ### The first opening bracket -/

/-- The offsets of the opening brackets from the offset `start` on. -/
def openings (b : Bracket) (text : Text) (start : Nat) : Set Nat :=
  {i | start ≤ i ∧ (i, b.opening) ∈ text.free}

theorem mem_openings {i : Nat} :
    i ∈ b.openings text start ↔ start ≤ i ∧ ∃ g, (i, g) ∈ placedFrom 0 text.glyphs ∧ g.opens b := by
  simp only [openings, Text.free, Set.mem_ofPred_eq, mem_outsideLiterals, Glyph.opens, Bool.and_eq_true,
    beq_iff_eq]

theorem not_opens_of_splitOpening_eq_none (offset : Nat)
    (absent : b.splitOpening (start - offset) gs = none) :
    ∀ i g, (i, g) ∈ placedFrom offset gs → start ≤ i → g.opens b = false := by
  induction gs generalizing offset with
  | nil => nofun
  | cons h gs ih =>
      rw [splitOpening] at absent
      split at absent
      · cases absent
      · rename_i other
        rw [Option.map_eq_none_iff, Nat.sub_sub] at absent
        intro i g member late
        rcases List.mem_cons.mp member with same | member
        · cases same
          rw [Nat.sub_eq_zero_of_le late] at other
          simpa using other
        · exact ih _ absent i g member late

theorem not_opens_of_splitOpening (offset : Nat)
    (split : b.splitOpening (start - offset) gs = some (before, rest)) :
    start ≤ offset + (Text.ofGlyphs before).bytes ∧
      ∀ i g, (i, g) ∈ placedFrom offset before → start ≤ i → g.opens b = false := by
  induction gs generalizing offset before with
  | nil => cases split
  | cons h gs ih =>
      rw [splitOpening] at split
      split at split
      · rename_i here
        cases split
        have reached := beq_iff_eq.mp (Bool.and_eq_true_iff.mp here).1
        refine ⟨Nat.le_trans (Nat.le_of_sub_eq_zero reached) (Nat.le_add_right ..), ?_⟩
        intro i g member
        exact absurd member List.not_mem_nil
      · rename_i other
        rw [Nat.sub_sub, Option.map_eq_some_iff] at split
        obtain ⟨⟨before, rest⟩, split, same⟩ := split
        cases same
        obtain ⟨late, others⟩ := ih _ split
        refine ⟨by rw [Text.bytes_ofGlyphs_cons, ← Nat.add_assoc]; exact late, ?_⟩
        intro i g member late
        rcases List.mem_cons.mp member with same | member
        · cases same
          rw [Nat.sub_eq_zero_of_le late] at other
          simpa using other
        · exact others i g member late

theorem openings_eq_empty (absent : b.splitOpening start text.glyphs = none) :
    b.openings text start = ∅ := by
  refine Set.eq_empty_iff_forall_notMem.mpr fun i member => ?_
  obtain ⟨late, g, placed, opens⟩ := mem_openings.mp member
  exact absurd opens (Bool.eq_false_iff.mp (not_opens_of_splitOpening_eq_none 0 absent i g placed late))

theorem isLeast_openings (split : b.splitOpening start text.glyphs = some (before, rest))
    (whole : text.glyphs = before ++ g :: rest) (opens : g.opens b) :
    IsLeast (b.openings text start) (Text.ofGlyphs before).bytes := by
  obtain ⟨late, others⟩ := not_opens_of_splitOpening 0 split
  have placed := placedFrom_glyphs whole
  rw [Nat.zero_add] at late
  refine ⟨mem_openings.mpr ⟨late, g, ?_, opens⟩, fun i member => ?_⟩
  · rw [placed]
    exact List.mem_append_right _ (List.mem_cons_self ..)
  · obtain ⟨late, h, member, opens⟩ := mem_openings.mp member
    rw [placed] at member
    rcases List.mem_append.mp member with member | member
    · exact absurd opens (Bool.eq_false_iff.mp (others i h member late))
    · have behind : (i, h) ∈ placedFrom (Text.ofGlyphs before).bytes (g :: rest) := member
      exact (bounds_of_mem_placedFrom behind).1

/-! ### The end of a group -/

/-- The opening brackets of the family minus its closing ones. -/
def excess (b : Bracket) (chars : List (Nat × Char)) : Int :=
  chars.countP (·.2 == b.opening) - chars.countP (·.2 == b.closing)

/-- The offsets from `first` on up to which as many groups have been closed as have been opened. -/
def returns (b : Bracket) (text : Text) (first : Nat) : Set Nat :=
  {i | first ≤ i ∧ b.excess (text.freeBetween first i) = 0}

/-- What a glyph adds to the count of open groups of the family. -/
def rise (b : Bracket) (g : Glyph) : Int := if g.opens b then 1 else if g.closes b then -1 else 0

/-- What the glyphs up to the offset `last` add to it, the first glyph standing at `offset`. -/
def height (b : Bracket) (last : Nat) : (offset : Nat) → List Glyph → Int
  | _, [] => 0
  | offset, g :: rest =>
    (if offset ≤ last then b.rise g else 0) + height b last (offset + g.char.utf8Size) rest

theorem rise_opens (opens : g.opens b) : b.rise g = 1 := if_pos opens

theorem rise_closes (closes : g.closes b) : b.rise g = -1 := by
  rw [rise, Glyph.opens_eq_false_of_closes closes, if_neg Bool.false_ne_true, if_pos closes]

theorem height_of_lt {last offset : Nat} (early : last < offset) (gs : List Glyph) :
    b.height last offset gs = 0 := by
  induction gs generalizing offset with
  | nil => rfl
  | cons g gs ih =>
      rw [height, if_neg (Nat.not_le.mpr early), ih (by omega)]
      rfl

theorem excess_cons (i : Nat) (c : Char) (chars : List (Nat × Char)) :
    b.excess ((i, c) :: chars) =
      (if c = b.opening then 1 else if c = b.closing then -1 else 0) + b.excess chars := by
  have apart : b.opening ≠ b.closing := by cases b <;> decide
  simp only [excess, List.countP_cons, beq_iff_eq]
  by_cases opening : c = b.opening
  · rw [if_pos opening, if_neg (opening ▸ apart), if_pos opening]
    push_cast
    omega
  · rw [if_neg opening, if_neg opening]
    split <;> push_cast <;> omega

theorem height_eq_excess {first offset : Nat} (started : first ≤ offset) (last : Nat) (gs : List Glyph) :
    b.height last offset gs =
      b.excess ((outsideLiterals (placedFrom offset gs)).filter fun (i, _) => first ≤ i && i ≤ last) := by
  induction gs generalizing offset with
  | nil => rfl
  | cons g gs ih =>
      have further : first ≤ offset + g.char.utf8Size := Nat.le_trans started (Nat.le_add_right ..)
      rw [height, ih further, placedFrom, outsideLiterals_cons]
      cases free : g.isFree with
      | false =>
          have none : b.rise g = 0 := by simp [rise, Glyph.opens, Glyph.closes, free]
          rw [none, ite_self, Int.zero_add, if_neg Bool.false_ne_true]
      | true =>
          have same : b.rise g =
              if g.char = b.opening then 1 else if g.char = b.closing then -1 else 0 := by
            simp [rise, Glyph.opens, Glyph.closes, free]
          rw [if_pos rfl]
          by_cases reached : offset ≤ last
          · rw [if_pos reached, List.filter_cons_of_pos (by simp [started, reached]), excess_cons, same]
          · rw [if_neg reached, List.filter_cons_of_neg (by simp [reached]), Int.zero_add]

/-- A search for the end of a group either ends at a glyph, or it goes on with the count after the glyph. -/
theorem splitClosing_step (depth : Nat) (g : Glyph) (rest : List Glyph) :
    (depth = 0 ∧ g.closes b ∧ b.splitClosing depth (g :: rest) = some ([], rest)) ∨
      ∃ next : Nat, next = depth + b.rise g ∧
        b.splitClosing depth (g :: rest) =
          (b.splitClosing next rest).map fun (inside, after) => (g :: inside, after) := by
  by_cases opens : g.opens b
  · exact .inr ⟨depth + 1, by rw [rise_opens opens]; rfl, splitClosing_opening depth rest opens⟩
  · by_cases closes : g.closes b
    · cases depth with
      | zero => exact .inl ⟨rfl, closes, splitClosing_closing rest closes⟩
      | succ depth =>
          exact .inr ⟨depth, by rw [rise_closes closes]; omega, splitClosing_inner depth rest closes⟩
    · refine .inr ⟨depth, by rw [rise, if_neg opens, if_neg closes, Int.add_zero], ?_⟩
      exact splitClosing_other depth rest (Bool.eq_false_iff.mpr opens) (Bool.eq_false_iff.mpr closes)

/-- Up to the end of the group the count is positive, and there it is zero. -/
theorem height_of_splitClosing (offset : Nat) (found : b.splitClosing depth gs = some (inside, after)) :
    depth + 1 + b.height (offset + (Text.ofGlyphs inside).bytes) offset gs = 0 ∧
      ∀ i < offset + (Text.ofGlyphs inside).bytes, 0 < depth + 1 + b.height i offset gs := by
  induction gs generalizing depth inside offset with
  | nil => cases found
  | cons g gs ih =>
      have size := g.char.utf8Size_pos
      rcases b.splitClosing_step depth g gs with ⟨rfl, closes, here⟩ | ⟨next, level, step⟩
      · cases here.symm.trans found
        refine ⟨?_, fun i early => ?_⟩
        · rw [height, height_of_lt (by simp [Text.ofGlyphs]; omega), if_pos (by simp), rise_closes closes]
          rfl
        · rw [height_of_lt (by simpa [Text.ofGlyphs] using early)]
          decide
      · rw [step, Option.map_eq_some_iff] at found
        obtain ⟨⟨inside, after⟩, found, same⟩ := found
        cases same
        obtain ⟨zero, positive⟩ := ih (offset + g.char.utf8Size) found
        rw [Text.bytes_ofGlyphs_cons, ← Nat.add_assoc]
        refine ⟨?_, fun i early => ?_⟩
        · rw [height, if_pos (by omega)]
          omega
        · have ahead := positive i early
          rw [height]
          by_cases reached : offset ≤ i
          · rw [if_pos reached]
            omega
          · rw [if_neg reached, height_of_lt (by omega)]
            omega

/-- The count of a group without an end stays positive. -/
theorem height_of_splitClosing_eq_none (offset i : Nat) (endless : b.splitClosing depth gs = none) :
    0 < depth + 1 + b.height i offset gs := by
  induction gs generalizing depth offset with
  | nil =>
      rw [height]
      omega
  | cons g gs ih =>
      rcases b.splitClosing_step depth g gs with ⟨-, -, here⟩ | ⟨next, level, step⟩
      · rw [here] at endless
        cases endless
      · rw [step, Option.map_eq_none_iff] at endless
        have ahead := ih (offset + g.char.utf8Size) endless
        rw [height]
        by_cases reached : offset ≤ i
        · rw [if_pos reached]
          omega
        · rw [if_neg reached, height_of_lt (by omega)]
          omega

/-- From an opening bracket on, the count is one more than what the glyphs behind it add. -/
theorem excess_freeBetween (whole : text.glyphs = before ++ g :: rest) (opens : g.opens b) {i : Nat}
    (reached : (Text.ofGlyphs before).bytes ≤ i) :
    b.excess (text.freeBetween (Text.ofGlyphs before).bytes i) =
      1 + b.height i ((Text.ofGlyphs before).bytes + g.char.utf8Size) rest := by
  have none : (outsideLiterals (placedFrom 0 before)).filter
      (fun (j, _) => (Text.ofGlyphs before).bytes ≤ j && j ≤ i) = [] := by
    refine List.filter_eq_nil_iff.mpr fun (j, c) member => ?_
    obtain ⟨g, placed, -, -⟩ := mem_outsideLiterals.mp member
    have below := (bounds_of_mem_placedFrom placed).2.1
    simp only [Bool.and_eq_true, decide_eq_true_eq]
    omega
  have parts : text.free = outsideLiterals (placedFrom 0 before) ++
      outsideLiterals (placedFrom (Text.ofGlyphs before).bytes (g :: rest)) := by
    rw [Text.free, whole, placedFrom_append, Nat.zero_add, outsideLiterals_append]
  rw [Text.freeBetween, parts, List.filter_append, none, List.nil_append, ← height_eq_excess le_rfl, height,
    if_pos reached, rise_opens opens]

theorem utf8Size_of_opens (opens : g.opens b) : g.char.utf8Size = 1 := by
  rw [Glyph.char_of_opens opens]
  cases b <;> rfl

theorem utf8Size_of_closes (closes : g.closes b) : g.char.utf8Size = 1 := by
  rw [Glyph.char_of_closes closes]
  cases b <;> rfl

theorem isLeast_returns (whole : text.glyphs = before ++ g :: rest) (opens : g.opens b)
    (found : b.splitClosing 0 rest = some (inside, after)) :
    IsLeast (b.returns text (Text.ofGlyphs before).bytes)
      ((Text.ofGlyphs before).bytes + 1 + (Text.ofGlyphs inside).bytes) := by
  have counted {i : Nat} := excess_freeBetween (i := i) whole opens
  rw [utf8Size_of_opens opens] at counted
  obtain ⟨zero, positive⟩ := height_of_splitClosing ((Text.ofGlyphs before).bytes + 1) found
  refine ⟨⟨by omega, ?_⟩, fun i returned => ?_⟩
  · rw [counted (by omega)]
    simpa using zero
  · obtain ⟨reached, even⟩ := returned
    by_contra early
    have ahead := positive i (Nat.lt_of_not_le early)
    rw [counted reached] at even
    omega

theorem returns_eq_empty (whole : text.glyphs = before ++ g :: rest) (opens : g.opens b)
    (endless : b.splitClosing 0 rest = none) : b.returns text (Text.ofGlyphs before).bytes = ∅ := by
  refine Set.eq_empty_iff_forall_notMem.mpr fun i returned => ?_
  obtain ⟨reached, even⟩ := returned
  rw [excess_freeBetween whole opens reached] at even
  have ahead := height_of_splitClosing_eq_none ((Text.ofGlyphs before).bytes + g.char.utf8Size) i endless
  omega

end Bracket

/-! ### Groups that span their text -/

namespace Text

variable {text : Text} {left right : List Glyph} {g : Glyph}

theorem isBlankText_ofGlyphs_iff {gs : List Glyph} :
    (ofGlyphs gs).isBlankText ↔ ∀ g ∈ gs, isBlank g.char := by
  simp [isBlankText, ofGlyphs]

theorem isLeast_filled_iff (whole : text.glyphs = left ++ g :: right) (here : !isBlank g.char) :
    IsLeast text.filled (ofGlyphs left).bytes ↔ (ofGlyphs left).isBlankText := by
  have placed := placedFrom_glyphs whole
  rw [isBlankText_ofGlyphs_iff]
  constructor
  · intro least h member
    obtain ⟨i, front⟩ := exists_mem_placedFrom 0 member
    have below := (bounds_of_mem_placedFrom front).2.1
    by_contra other
    have above := least.2 ⟨h, placed ▸ List.mem_append_left _ front, by simpa using other⟩
    omega
  · intro blank
    refine ⟨⟨g, placed ▸ List.mem_append_right _ (List.mem_cons_self ..), here⟩, ?_⟩
    rintro i ⟨h, member, other⟩
    rw [placed] at member
    rcases List.mem_append.mp member with front | member
    · rw [blank h (bounds_of_mem_placedFrom front).2.2] at other
      cases other
    · have behind : (i, h) ∈ placedFrom (ofGlyphs left).bytes (g :: right) := member
      exact (bounds_of_mem_placedFrom behind).1

theorem isGreatest_filled_iff (whole : text.glyphs = left ++ g :: right) (here : !isBlank g.char) :
    IsGreatest text.filled (ofGlyphs left).bytes ↔ (ofGlyphs right).isBlankText := by
  have placed := placedFrom_glyphs whole
  have size := g.char.utf8Size_pos
  rw [isBlankText_ofGlyphs_iff]
  constructor
  · intro greatest h member
    obtain ⟨i, behind⟩ := exists_mem_placedFrom ((ofGlyphs left).bytes + g.char.utf8Size) member
    have above := (bounds_of_mem_placedFrom behind).1
    by_contra other
    have within := List.mem_append_right (placedFrom 0 left)
      (List.mem_cons_of_mem ((ofGlyphs left).bytes, g) behind)
    have below := greatest.2 ⟨h, placed ▸ within, by simpa using other⟩
    omega
  · intro blank
    refine ⟨⟨g, placed ▸ List.mem_append_right _ (List.mem_cons_self ..), here⟩, ?_⟩
    rintro i ⟨h, member, other⟩
    rw [placed] at member
    rcases List.mem_append.mp member with front | behind
    · have below := (bounds_of_mem_placedFrom front).2.1
      omega
    · rcases List.mem_cons.mp behind with same | behind
      · cases same
        exact le_rfl
      · rw [blank h (bounds_of_mem_placedFrom behind).2.2] at other
        cases other

end Text

theorem Bracket.isBlank_eq_false_of_opens {b : Bracket} {g : Glyph} (opens : g.opens b) :
    !isBlank g.char := by
  rw [Glyph.char_of_opens opens]
  cases b <;> decide

theorem Bracket.isBlank_eq_false_of_closes {b : Bracket} {g : Glyph} (closes : g.closes b) :
    !isBlank g.char := by
  rw [Glyph.char_of_closes closes]
  cases b <;> decide

theorem Group.closeOffset_eq {b : Bracket} {before inside after : List Glyph} {g : Glyph}
    (opens : g.opens b) :
    (Group.mk before inside after).closeOffset = (Text.ofGlyphs (before ++ g :: inside)).bytes := by
  rw [Text.ofGlyphs_append, Text.bytes_append, Text.bytes_ofGlyphs_cons, Bracket.utf8Size_of_opens opens,
    ← Nat.add_assoc]
  rfl

/-- A group is an outer one if its brackets are the first and the last character that is not blank. -/
theorem Group.isOuter_iff {b : Bracket} {text : Text} {before inside after : List Glyph} {g h : Glyph}
    (whole : text.glyphs = before ++ g :: (inside ++ h :: after)) (opens : g.opens b) (closes : h.closes b) :
    (Group.mk before inside after).isOuter ↔
      IsLeast text.filled (Group.mk before inside after).openOffset ∧
        IsGreatest text.filled (Group.mk before inside after).closeOffset := by
  have last : text.glyphs = (before ++ g :: inside) ++ h :: after := by
    rw [whole, List.append_assoc, List.cons_append]
  rw [isOuter, Bool.and_eq_true, closeOffset_eq opens,
    Text.isGreatest_filled_iff last (Bracket.isBlank_eq_false_of_closes closes),
    ← Text.isLeast_filled_iff whole (Bracket.isBlank_eq_false_of_opens opens)]
  rfl

end MissionScript
