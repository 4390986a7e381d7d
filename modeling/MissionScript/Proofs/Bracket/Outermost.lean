import MissionScript.Proofs.Bracket.Offsets
import MissionScript.Script.Split

/-!
# The outermost groups

Looking for the groups one after the other, each search behind the end of the group before, comes to the
same as one pass that counts how many groups of the family are open.
-/

namespace MissionScript

variable {b : Bracket} {text : Text} {depth : Nat} {before inside after front gs rest : List Glyph} {g : Glyph}

/-- What one search after the other finds from the offset `start` on, each behind the closing bracket that
the one before has found: the contents, or nothing if a group has no end. -/
inductive Bracket.Restarts (b : Bracket) (text : Text) : Nat → Option (List Text) → Prop where
  | done {start : Nat} : b.scan text start = .notFound → Restarts b text start (some [])
  | endless {start : Nat} {before : List Glyph} :
      b.scan text start = .unmatched before → Restarts b text start none
  | next {start : Nat} {group : Group} {contents : Option (List Text)} :
      b.scan text start = .matched group → Restarts b text (group.closeOffset + 1) contents →
        Restarts b text start (contents.map (group.content.trim :: ·))

/-- One pass over a text that counts the open groups of a family. -/
structure Pass where
  depth : Nat := 0
  /-- What has been read of the outermost group that is open. -/
  current : Text := []
  /-- The trimmed contents of the groups that are closed. -/
  groups : List Text := []

/-- A closing bracket that closes nothing is read like any other character. -/
def Pass.read (b : Bracket) (pass : Pass) (g : Glyph) : Pass :=
  if g.opens b then
    { pass with
      depth := pass.depth + 1
      current := if pass.depth = 0 then [] else pass.current ++ [g.char] }
  else if g.closes b then
    match pass.depth with
    | 0 => pass
    | 1 => { groups := pass.groups ++ [pass.current.trim] }
    | depth + 2 => { pass with depth := depth + 1, current := pass.current ++ [g.char] }
  else if pass.depth = 0 then pass
  else { pass with current := pass.current ++ [g.char] }

def Bracket.pass (b : Bracket) (text : Text) : Pass := text.glyphs.foldl (Pass.read b) {}

namespace Bracket

/-! ### One search after the other -/

theorem splitOpening_append (front gs : List Glyph) :
    b.splitOpening (Text.ofGlyphs front).bytes (front ++ gs) =
      (b.splitOpening 0 gs).map fun (before, after) => (front ++ before, after) := by
  induction front with
  | nil => simp [Text.ofGlyphs]
  | cons g front ih =>
      have late : ((Text.ofGlyphs (g :: front)).bytes == 0) = false := by
        have size := g.char.utf8Size_pos
        rw [Text.bytes_ofGlyphs_cons, beq_eq_false_iff_ne]
        omega
      rw [List.cons_append, splitOpening, late, Bool.false_and, if_neg Bool.false_ne_true,
        Text.bytes_ofGlyphs_cons, Nat.add_sub_cancel_left, ih, Option.map_map]
      rfl

/-- A search from a place on finds what a search in the rest of the text finds. -/
theorem scanGlyphs_append (front gs : List Glyph) :
    b.scanGlyphs (Text.ofGlyphs front).bytes (front ++ gs) =
      match b.scanGlyphs 0 gs with
      | .notFound => .notFound
      | .unmatched before => .unmatched (front ++ before)
      | .matched group => .matched { group with before := front ++ group.before } := by
  rw [scanGlyphs, scanGlyphs, splitOpening_append]
  cases b.splitOpening 0 gs with
  | none => rfl
  | some cut =>
      dsimp only [Option.map_some]
      cases b.splitClosing 0 cut.2 <;> rfl

theorem restarts_outermost (whole : text.glyphs = front ++ gs) :
    b.Restarts text (Text.ofGlyphs front).bytes (b.outermost? gs) := by
  fun_induction b.outermost? gs generalizing front with
  | case1 gs absent =>
      refine .done ?_
      rw [scan, whole, scanGlyphs_append, absent]
  | case2 gs before endless =>
      have here : b.scan text (Text.ofGlyphs front).bytes = .unmatched (front ++ before) := by
        rw [scan, whole, scanGlyphs_append, endless]
      exact .endless here
  | case3 gs group found ih =>
      have scans := b.scans_scanGlyphs 0 gs
      rw [found] at scans
      cases scans with
      | @matched before inside after g h split joined opens closes closing =>
          have behind : text.glyphs = (front ++ before ++ g :: inside ++ [h]) ++ after := by
            rw [whole, joined]
            simp
          have offset : (Text.ofGlyphs (front ++ before ++ g :: inside ++ [h])).bytes =
              (Group.mk (front ++ before) inside after).closeOffset + 1 := by
            rw [Group.closeOffset_eq opens, Text.ofGlyphs_append, Text.bytes_append,
              Text.bytes_ofGlyphs_cons, utf8Size_of_closes closes]
            rfl
          have here : b.scan text (Text.ofGlyphs front).bytes =
              .matched ⟨front ++ before, inside, after⟩ := by
            rw [scan, whole, scanGlyphs_append, found]
          have again := ih behind
          rw [offset] at again
          have next := Restarts.next here again
          exact next

/-! ### One pass -/

theorem read_other (opens : g.opens b = false) (groups : List Text) :
    Pass.read b { groups } g = { groups } := by
  rw [Pass.read, opens, if_neg Bool.false_ne_true]
  split <;> rfl

theorem read_closing (closes : g.closes b) (current : Text) (groups : List Text) :
    Pass.read b ⟨1, current, groups⟩ g = { groups := groups ++ [current.trim] } := by
  rw [Pass.read, Glyph.opens_eq_false_of_closes closes, if_neg Bool.false_ne_true, if_pos closes]

/-- Within a group every glyph is kept and counted. -/
theorem read_inside {next : Nat} (level : (next : Int) = depth + b.rise g) (current : Text)
    (groups : List Text) :
    Pass.read b ⟨depth + 1, current, groups⟩ g = ⟨next + 1, current ++ [g.char], groups⟩ := by
  rw [Pass.read]
  by_cases opens : g.opens b
  · rw [rise_opens opens] at level
    obtain rfl : next = depth + 1 := by omega
    rw [if_pos opens, if_neg (Nat.succ_ne_zero depth)]
  · by_cases closes : g.closes b
    · rw [rise_closes closes] at level
      obtain rfl : depth = next + 1 := by omega
      rw [if_neg opens, if_pos closes]
    · rw [rise, if_neg opens, if_neg closes] at level
      obtain rfl : next = depth := by omega
      rw [if_neg opens, if_neg closes, if_neg (Nat.succ_ne_zero next)]

theorem foldl_read_of_splitOpening (groups : List Text) (split : b.splitOpening 0 gs = some (before, rest)) :
    gs.foldl (Pass.read b) { groups } = rest.foldl (Pass.read b) { depth := 1, groups } := by
  induction gs generalizing before with
  | nil => cases split
  | cons g gs ih =>
      rw [splitOpening, beq_self_eq_true, Bool.true_and] at split
      rw [List.foldl_cons]
      cases opens : g.opens b with
      | true =>
          rw [opens, if_pos rfl] at split
          cases split
          rw [Pass.read, if_pos opens]
          rfl
      | false =>
          rw [opens, if_neg Bool.false_ne_true, Nat.zero_sub, Option.map_eq_some_iff] at split
          obtain ⟨⟨before, rest⟩, split, same⟩ := split
          cases same
          rw [read_other opens, ih split]

theorem foldl_read_of_splitOpening_eq_none (groups : List Text) (absent : b.splitOpening 0 gs = none) :
    gs.foldl (Pass.read b) { groups } = { groups } := by
  have unopened := splitOpening_zero_eq_none_iff.mp absent
  clear absent
  induction gs with
  | nil => rfl
  | cons g gs ih =>
      obtain ⟨opens, others⟩ := List.forall_mem_cons.mp unopened
      rw [List.foldl_cons, read_other opens, ih others]

/-- The pass comes to the end of a group where the search finds it. -/
theorem foldl_read_of_splitClosing (current : Text) (groups : List Text)
    (found : b.splitClosing depth gs = some (inside, after)) :
    gs.foldl (Pass.read b) ⟨depth + 1, current, groups⟩ =
      after.foldl (Pass.read b) { groups := groups ++ [(current ++ Text.ofGlyphs inside).trim] } := by
  induction gs generalizing depth current inside with
  | nil => cases found
  | cons g gs ih =>
      rw [List.foldl_cons]
      rcases b.splitClosing_step depth g gs with ⟨rfl, closes, here⟩ | ⟨next, level, step⟩
      · cases here.symm.trans found
        rw [read_closing closes, Text.ofGlyphs, List.map_nil, List.append_nil]
      · rw [step, Option.map_eq_some_iff] at found
        obtain ⟨⟨inside, after⟩, found, same⟩ := found
        cases same
        rw [read_inside level, ih _ found, List.append_assoc]
        rfl

theorem depth_of_splitClosing_eq_none (current : Text) (groups : List Text)
    (endless : b.splitClosing depth gs = none) :
    (gs.foldl (Pass.read b) ⟨depth + 1, current, groups⟩).depth ≠ 0 := by
  induction gs generalizing depth current with
  | nil => exact Nat.succ_ne_zero depth
  | cons g gs ih =>
      rcases b.splitClosing_step depth g gs with ⟨-, -, here⟩ | ⟨next, level, step⟩
      · rw [here] at endless
        cases endless
      · rw [step, Option.map_eq_none_iff] at endless
        rw [List.foldl_cons, read_inside level]
        exact ih _ endless

/-- The pass ends outside groups if the searches find every end, and it has the same contents. -/
theorem foldl_read_eq (groups : List Text) (gs : List Glyph) :
    match b.outermost? gs with
    | some contents => gs.foldl (Pass.read b) { groups } = { groups := groups ++ contents }
    | none => (gs.foldl (Pass.read b) { groups }).depth ≠ 0 := by
  fun_induction b.outermost? gs generalizing groups with
  | case1 gs absent =>
      have scans := b.scans_scanGlyphs 0 gs
      rw [absent] at scans
      cases scans with
      | notFound absent =>
          exact (foldl_read_of_splitOpening_eq_none groups absent).trans (by rw [List.append_nil])
  | case2 gs before endless =>
      have scans := b.scans_scanGlyphs 0 gs
      rw [endless] at scans
      cases scans with
      | unmatched split _ _ endless =>
          rw [foldl_read_of_splitOpening groups split]
          exact depth_of_splitClosing_eq_none [] groups endless
  | case3 gs group found ih =>
      have scans := b.scans_scanGlyphs 0 gs
      rw [found] at scans
      cases scans with
      | @matched before inside after g h split joined opens closes closing =>
          have again := ih (groups ++ [(Text.ofGlyphs inside).trim])
          rw [foldl_read_of_splitOpening groups split, foldl_read_of_splitClosing [] groups closing]
          cases contents : b.outermost? after with
          | none =>
              rw [contents] at again
              exact again
          | some contents =>
              rw [contents] at again
              exact again.trans (by rw [List.append_assoc]; rfl)

end Bracket

theorem separateGroups_eq_pass (b : Bracket) (text : Text) :
    separateGroups b text =
      if (b.pass text).depth = 0 then .ok (b.pass text).groups
      else .error { cause := .unmatchedBracket, text } := by
  have same := b.foldl_read_eq [] text.glyphs
  rw [separateGroups, Bracket.pass]
  cases contents : b.outermost? text.glyphs with
  | none =>
      rw [contents] at same
      rw [if_neg same]
  | some contents =>
      rw [contents] at same
      dsimp only [List.nil_append] at same
      rw [same, if_pos rfl]

/-- The text in front of a group, in it and behind it. -/
theorem Bracket.text_eq {before inside after : List Glyph} {g h : Glyph}
    (whole : text.glyphs = before ++ g :: (inside ++ h :: after)) (opens : g.opens b) (closes : h.closes b) :
    text = Text.ofGlyphs before ++ b.opening ::
      ((Group.mk before inside after).content ++ b.closing :: Text.ofGlyphs after) := by
  rw [← Text.ofGlyphs_glyphs text, whole, ← Glyph.char_of_opens opens, ← Glyph.char_of_closes closes,
    Group.content, Text.ofGlyphs_append, Text.ofGlyphs, Text.ofGlyphs, List.map_cons, List.map_append]
  rfl

/-- A scan finds the group that the first opening bracket starts and that ends where the count of the family
is back at zero for the first time. One scan after the other finds the groups that one counting pass
delimits. -/
theorem scan_finds_group (b : Bracket) (text : Text) :
    (∀ start,
      (b.scan text start = .notFound ↔ b.openings text start = ∅) ∧
      ∀ first, IsLeast (b.openings text start) first →
        (∀ last, IsLeast (b.returns text first) last →
          ∃ group, b.scan text start = .matched group ∧
            text = Text.ofGlyphs group.before ++ b.opening ::
              (group.content ++ b.closing :: Text.ofGlyphs group.after) ∧
            group.openOffset = first ∧ group.closeOffset = last ∧
            (group.isOuter ↔ IsLeast text.filled first ∧ IsGreatest text.filled last)) ∧
        (b.returns text first = ∅ →
          ∃ before, b.scan text start = .unmatched before ∧ (Text.ofGlyphs before).bytes = first)) ∧
    b.Restarts text 0 (b.outermost? text.glyphs) ∧
    separateGroups b text =
      if (b.pass text).depth = 0 then .ok (b.pass text).groups
      else .error { cause := .unmatchedBracket, text } := by
  have whole : text.glyphs = [] ++ text.glyphs := rfl
  refine ⟨fun start => ?_, Bracket.restarts_outermost whole, separateGroups_eq_pass b text⟩
  have scans := b.scans_scanGlyphs start text.glyphs
  rw [show b.scanGlyphs start text.glyphs = b.scan text start from rfl] at scans
  generalize b.scan text start = answer at scans
  cases scans with
  | notFound absent =>
      have none := Bracket.openings_eq_empty absent
      refine ⟨iff_of_true rfl none, fun first least => ?_⟩
      exact absurd least.1 (none ▸ Set.notMem_empty first)
  | unmatched split whole opens endless =>
      have opening := Bracket.isLeast_openings split whole opens
      have never := Bracket.returns_eq_empty whole opens endless
      refine ⟨iff_of_false nofun (Set.nonempty_iff_ne_empty.mp ⟨_, opening.1⟩), fun first least => ?_⟩
      obtain rfl := opening.unique least
      refine ⟨fun last returned => ?_, fun _ => ⟨_, rfl, rfl⟩⟩
      exact absurd returned.1 (never ▸ Set.notMem_empty last)
  | @matched before inside after g h split whole opens closes found =>
      have opening := Bracket.isLeast_openings split whole opens
      have returned := Bracket.isLeast_returns whole opens found
      refine ⟨iff_of_false nofun (Set.nonempty_iff_ne_empty.mp ⟨_, opening.1⟩), fun first least => ?_⟩
      obtain rfl := opening.unique least
      refine ⟨fun last again => ?_, fun never => absurd returned.1 (never ▸ Set.notMem_empty _)⟩
      obtain rfl := returned.unique again
      exact ⟨_, rfl, Bracket.text_eq whole opens closes, rfl, rfl, Group.isOuter_iff whole opens closes⟩

/-- The bracket within the literal starts no group. -/
theorem scan_finds_group_literal :
    IsLeast (Bracket.paren.openings "'(' (a)".toList 0) 4 ∧
      IsLeast (Bracket.paren.returns "'(' (a)".toList 4) 6 ∧
        ∃ group, Bracket.paren.scan "'(' (a)".toList 0 = .matched group ∧ group.openOffset = 4 ∧
          group.closeOffset = 6 := by
  have free : Text.free "'(' (a)".toList = [(3, ' '), (4, '('), (5, 'a'), (6, ')')] := by decide
  have opening : IsLeast (Bracket.paren.openings "'(' (a)".toList 0) 4 := by
    refine ⟨⟨Nat.zero_le 4, by rw [free]; decide⟩, fun i member => ?_⟩
    have place := member.2
    rw [free] at place
    simp [Bracket.opening] at place
    omega
  have closing : IsLeast (Bracket.paren.returns "'(' (a)".toList 4) 6 := by
    refine ⟨⟨by decide, by decide⟩, fun i member => ?_⟩
    obtain ⟨reached, even⟩ := member
    by_contra early
    obtain rfl | rfl : i = 4 ∨ i = 5 := by omega
    · exact absurd even (by decide)
    · exact absurd even (by decide)
  obtain ⟨group, found, -, first, last, -⟩ :=
    (((scan_finds_group .paren "'(' (a)".toList).1 0).2 4 opening).1 6 closing
  exact ⟨opening, closing, group, found, first, last⟩

end MissionScript
