import Mathlib.Data.Finset.Card
import MissionScript.Proofs.Sequence.Chain
import MissionScript.Proofs.Sequence.Deletion

/-!
# Going down the links

Sound links lead away from the roots, and no way down is longer than there are commands. So what holds of
a command can be proved from what holds of the commands below it, and the walks, which are bounded, see
everything that links lead to: their bounds can be forgotten.
-/

namespace MissionScript

namespace Arena

variable {a b : Arena} {h other : Handle} {node : Node} {enters : Node → Bool} {limit depth : Nat}

/-! ## Induction on the links -/

open Classical in
/-- The commands that links lead to from a command, and the command itself. -/
noncomputable def below (a : Arena) (h : Handle) : Finset Handle :=
  a.handles.toFinset.filter (a.linkage.Reaches h)

open Classical in
theorem mem_below : other ∈ a.below h ↔ a.contains other ∧ a.linkage.Reaches h other := by
  rw [below, Finset.mem_filter, List.mem_toFinset, mem_handles]

open Classical in
theorem card_below_le (a : Arena) (h : Handle) : (a.below h).card ≤ a.slots.size :=
  calc
    (a.below h).card ≤ a.handles.toFinset.card := Finset.card_filter_le _ _
    _ ≤ a.handles.length := a.handles.toFinset_card_le
    _ = a.live := length_handles
    _ ≤ a.slots.size := a.live_le_size

theorem card_below_pos (live : a.contains h) : 0 < (a.below h).card :=
  Finset.card_pos.mpr ⟨h, mem_below.mpr ⟨live, .refl⟩⟩

section

variable (sound : a.linkage.Sound)

include sound

theorem card_below_lt (owns : a.linkage.Owns h other) : (a.below other).card < (a.below h).card := by
  obtain ⟨p, rfl, leads⟩ := owns
  apply Finset.card_lt_card
  constructor
  · intro member inside
    obtain ⟨live, reaches⟩ := mem_below.mp inside
    exact mem_below.mpr ⟨live, .head (.of_target leads) reaches⟩
  · intro all
    have own := all (mem_below.mpr ⟨(sound.live leads).1, .refl⟩)
    exact sound.not_reaches leads (mem_below.mp own).2

/-- What holds of a command if it holds of all commands below it holds of every command. -/
theorem induction_below {motive : Handle → Prop}
    (step : ∀ h, (∀ other, Relation.TransGen a.linkage.Owns h other → motive other) → motive h)
    (h : Handle) : motive h := by
  have descends : WellFounded (Function.swap a.linkage.Owns) :=
    Subrelation.wf (fun owns => card_below_lt sound owns) (measure fun h => (a.below h).card).wf
  induction h using descends.transGen.induction with
  | h h ih => exact step h fun other below => ih other (Relation.transGen_swap.mpr below)

/-! ## The bounds of walks -/

/-- A walk is complete when its bound is the number of the commands that it can meet. -/
theorem walkFrom_succ (enough : (a.below h).card ≤ limit) :
    a.walkFrom enters (limit + 1) depth h = a.walkFrom enters limit depth h := by
  induction limit generalizing h depth with
  | zero =>
      cases found : a.node? h with
      | none =>
          unfold walkFrom
          rw [found]
      | some node =>
          have positive := card_below_pos (contains_of_node? found)
          omega
  | succ limit ih =>
      cases found : a.node? h with
      | none => rw [walkFrom, walkFrom, found]
      | some node =>
          have onward (depth : Nat) (other : Handle) (member : other ∈ node.heads ++ node.next.toList) :
              a.walkFrom enters (limit + 1) depth other = a.walkFrom enters limit depth other := by
            apply ih
            have fewer := card_below_lt sound ((mem_links_of_node? found).mp member)
            omega
          have heads := List.flatMap_congr fun other member =>
            onward (depth + 1) other (List.mem_append_left _ member)
          have next := List.flatMap_congr fun other member =>
            onward depth other (List.mem_append_right _ member)
          rw [walkFrom, walkFrom, found]
          dsimp only
          rw [heads, next]

theorem walkFrom_eq (enough : (a.below h).card ≤ limit) (more : limit ≤ a.slots.size) :
    a.walkFrom enters limit depth h = a.walkFrom enters a.slots.size depth h := by
  obtain ⟨extra, same⟩ := Nat.exists_eq_add_of_le more
  rw [same]
  clear same more
  induction extra with
  | zero => rfl
  | succ extra ih => rw [ih, ← Nat.add_assoc, walkFrom_succ sound (by omega)]

/-- A walk meets a command, then what is in its branches, then what follows it. -/
theorem walkFrom_of_node? (found : a.node? h = some node) :
    a.walkFrom enters a.slots.size depth h =
      { depth, handle := h, node } ::
        (if enters node then node.heads.flatMap (a.walkFrom enters a.slots.size (depth + 1)) else []) ++
        node.next.toList.flatMap (a.walkFrom enters a.slots.size depth) := by
  have whole := a.card_below_le h
  have positive := card_below_pos (contains_of_node? found)
  obtain ⟨limit, size⟩ := Nat.exists_eq_add_one_of_ne_zero (Nat.ne_of_gt (Nat.lt_of_lt_of_le positive whole))
  have onward (depth : Nat) (other : Handle) (member : other ∈ node.heads ++ node.next.toList) :
      a.walkFrom enters limit depth other = a.walkFrom enters a.slots.size depth other := by
    have fewer := card_below_lt sound ((mem_links_of_node? found).mp member)
    exact walkFrom_eq sound (by omega) (by omega)
  have heads := List.flatMap_congr fun other member =>
    onward (depth + 1) other (List.mem_append_left _ member)
  have next := List.flatMap_congr fun other member => onward depth other (List.mem_append_right _ member)
  conv_lhs => rw [size, walkFrom, found]
  dsimp only
  rw [heads, next]

end

/-- Where a walk starts to count does not change what it meets. -/
theorem handles_walkFrom (limit depth : Nat) (h : Handle) :
    (a.walkFrom enters limit depth h).map (·.handle) = (a.walkFrom enters limit 0 h).map (·.handle) := by
  induction limit generalizing depth h with
  | zero => rfl
  | succ limit ih =>
      rw [walkFrom, walkFrom]
      cases a.node? h with
      | none => rfl
      | some node =>
          dsimp only
          simp only [List.map_append, List.map_cons, List.map_flatMap, apply_ite (List.map _), ih depth,
            ih (depth + 1), ih (0 + 1), List.map_nil]

/-! ## The commands of a tree -/

theorem commandsFrom_of_stale (stale : ¬ a.contains h) : a.commandsFrom h = [] := by
  have absent := node?_of_stale stale
  rw [commandsFrom, walk]
  cases a.slots.size with
  | zero => rfl
  | succ limit => rw [walkFrom, absent]; rfl

section

variable (sound : a.linkage.Sound)

include sound

theorem commandsFrom_of_node? (found : a.node? h = some node) :
    a.commandsFrom h = h :: (node.heads ++ node.next.toList).flatMap a.commandsFrom := by
  have inner (depth : Nat) :
      (fun other => (a.walkFrom (fun _ => true) a.slots.size depth other).map (·.handle)) = a.commandsFrom :=
    funext fun other => handles_walkFrom a.slots.size depth other
  rw [commandsFrom, walk, walkFrom_of_node? sound found, if_pos rfl, List.map_append, List.map_cons,
    List.map_flatMap, List.map_flatMap, inner, inner, List.flatMap_append]
  rfl

/-- The commands from a command on are its tree and those from the next command on. -/
theorem commandsFrom_eq_subtree (h : Handle) :
    a.commandsFrom h = a.subtree h ++ (a.next? h).toList.flatMap a.commandsFrom := by
  rw [subtree, next?]
  cases found : a.node? h with
  | none =>
      rw [commandsFrom_of_stale (by rw [contains, found]; exact Bool.false_ne_true)]
      rfl
  | some node =>
      rw [commandsFrom_of_node? sound found, List.flatMap_append]
      rfl

/-- The walk meets what links lead to, and nothing else. -/
theorem mem_commandsFrom : other ∈ a.commandsFrom h ↔ a.contains h ∧ a.linkage.Reaches h other := by
  induction h using induction_below sound with
  | step h ih =>
      by_cases live : a.contains h
      · obtain ⟨node, found⟩ := exists_node? live
        rw [commandsFrom_of_node? sound found, List.mem_cons, List.mem_flatMap]
        constructor
        · rintro (rfl | ⟨next, member, inside⟩)
          · exact ⟨live, .refl⟩
          · have owns := (mem_links_of_node? found).mp member
            exact ⟨live, .head owns ((ih next (.single owns)).mp inside).2⟩
        · rintro ⟨-, reaches⟩
          rcases Relation.ReflTransGen.cases_head reaches with same | ⟨next, owns, rest⟩
          · exact .inl same.symm
          · have liveNext : a.contains next := by
              obtain ⟨p, -, leads⟩ := owns
              exact (sound.live leads).2
            exact .inr ⟨next, (mem_links_of_node? found).mpr owns,
              (ih next (.single owns)).mpr ⟨liveNext, rest⟩⟩
      · rw [commandsFrom_of_stale live]
        simp [live]

/-- No command can be reached along two links of one command. -/
theorem eq_of_owns_of_reaches {first second : Handle} (ownsFirst : a.linkage.Owns h first)
    (ownsSecond : a.linkage.Owns h second) (reachesFirst : a.linkage.Reaches first other)
    (reachesSecond : a.linkage.Reaches second other) : first = second := by
  -- If one of the two reached the other, it would reach the command that owns both.
  have apart {first second : Handle} (ownsFirst : a.linkage.Owns h first)
      (ownsSecond : a.linkage.Owns h second) (reaches : a.linkage.Reaches first second) :
      first = second := by
    obtain ⟨p, rfl, leads⟩ := ownsFirst
    obtain ⟨q, anchor, leadsToo⟩ := ownsSecond
    rcases Relation.ReflTransGen.cases_tail reaches with same | ⟨last, before, r, rfl, leadsLast⟩
    · exact same.symm
    · rw [sound.single leadsLast leadsToo, anchor] at before
      exact absurd before (sound.not_reaches leads)
  rcases sound.reaches_or_reaches reachesFirst reachesSecond with before | before
  · exact apart ownsFirst ownsSecond before
  · exact (apart ownsSecond ownsFirst before).symm

/-- No command is met twice. -/
theorem nodup_commandsFrom (h : Handle) : (a.commandsFrom h).Nodup := by
  induction h using induction_below sound with
  | step h ih =>
      by_cases live : a.contains h
      · obtain ⟨node, found⟩ := exists_node? live
        rw [commandsFrom_of_node? sound found, List.nodup_cons, List.mem_flatMap, List.nodup_flatMap]
        refine ⟨?_, fun next member => ih next (.single ((mem_links_of_node? found).mp member)), ?_⟩
        · rintro ⟨next, member, inside⟩
          obtain ⟨p, rfl, leads⟩ := (mem_links_of_node? found).mp member
          exact sound.not_reaches leads ((mem_commandsFrom sound).mp inside).2
        · apply (nodup_links_of_node? sound.toForked found).imp_of_mem
          intro first second memberFirst memberSecond different shared inFirst inSecond
          exact different (eq_of_owns_of_reaches sound ((mem_links_of_node? found).mp memberFirst)
            ((mem_links_of_node? found).mp memberSecond) ((mem_commandsFrom sound).mp inFirst).2
            ((mem_commandsFrom sound).mp inSecond).2)
      · rw [commandsFrom_of_stale live]
        exact List.nodup_nil

/-- The tree of a command holds the command and what its branches lead to. -/
theorem mem_subtree : other ∈ a.subtree h ↔ a.contains h ∧
    (other = h ∨ ∃ branch head, a.child? h branch = some head ∧ a.linkage.Reaches head other) := by
  cases found : a.node? h with
  | none => simp [subtree, contains, found]
  | some node =>
      have live := contains_of_node? found
      rw [subtree, found]
      simp only [List.mem_cons, List.mem_flatMap, live, true_and]
      apply or_congr_right
      constructor
      · rintro ⟨head, member, inside⟩
        obtain ⟨branch, first⟩ := (child?_eq_some_iff found).mpr member
        exact ⟨branch, head, first, ((mem_commandsFrom sound).mp inside).2⟩
      · rintro ⟨branch, head, first, reaches⟩
        have liveHead := (sound.live (p := .inside h branch) first).2
        exact ⟨head, (child?_eq_some_iff found).mp ⟨branch, first⟩,
          (mem_commandsFrom sound).mpr ⟨liveHead, reaches⟩⟩

end

end Arena

end MissionScript
