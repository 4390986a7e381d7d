import Mathlib.Data.List.Perm.Subperm
import MissionScript.Proofs.Sequence.WellFormed

/-!
# Chains of a well-formed arena

A chain of a well-formed arena holds no command twice, so a walk along it comes to its end within the
bound on walks.
-/

namespace MissionScript

@[simp] theorem follow_none (link : Handle → Option Handle) (limit : Nat) :
    follow link limit none = [] := by
  cases limit <;> rfl

/-- A walk that is shorter than it may be has come to an end. -/
theorem next_getLastD_follow {link : Handle → Option Handle} {limit : Nat} {h : Handle}
    (short : (follow link limit (some h)).length < limit) (default : Handle) :
    link ((follow link limit (some h)).getLastD default) = none := by
  induction limit generalizing h default with
  | zero => cases short
  | succ limit ih =>
      rw [follow, List.length_cons] at short
      rw [follow, List.getLastD_cons]
      cases onward : link h with
      | none =>
          rw [follow_none]
          exact onward
      | some next =>
          rw [onward] at short
          exact ih (Nat.lt_of_succ_lt_succ short) h

/-- A walk that has come to an end does not go on when it may be longer. -/
theorem follow_of_short {link : Handle → Option Handle} {limit : Nat} {start : Option Handle}
    (short : (follow link limit start).length < limit) :
    follow link (limit + 1) start = follow link limit start := by
  induction limit generalizing start with
  | zero => cases short
  | succ limit ih =>
      cases start with
      | none => rfl
      | some h =>
          rw [follow, List.length_cons] at short
          rw [follow, follow, ih (Nat.lt_of_succ_lt_succ short)]

/-- A walk goes on along the links of its handles. -/
theorem mem_follow_of_link {link : Handle → Option Handle} {limit : Nat} {start : Option Handle}
    {h other : Handle} (member : h ∈ follow link limit start) (onward : link h = some other) :
    other ∈ follow link (limit + 1) start := by
  induction limit generalizing start with
  | zero => cases start <;> cases member
  | succ limit ih =>
      cases start with
      | none => cases member
      | some first =>
          rw [follow, List.mem_cons] at member
          rw [follow, List.mem_cons]
          apply Or.inr
          rcases member with rfl | behind
          · rw [onward, follow]
            exact List.mem_cons_self
          · exact ih behind

/-- A walk gets to a handle along a link, unless it starts there. -/
theorem exists_link_of_mem_follow {link : Handle → Option Handle} {limit : Nat} {h other : Handle}
    (member : other ∈ follow link limit (some h)) :
    other = h ∨ ∃ last ∈ follow link limit (some h), link last = some other := by
  induction limit generalizing h with
  | zero => cases member
  | succ limit ih =>
      rw [follow, List.mem_cons] at member
      rw [follow]
      rcases member with same | behind
      · exact .inl same
      · apply Or.inr
        cases onward : link h with
        | none =>
            rw [onward, follow_none] at behind
            cases behind
        | some next =>
            rw [onward] at behind
            rcases ih behind with same | ⟨last, earlier, leads⟩
            · exact ⟨h, List.mem_cons_self, onward.trans (congrArg some same.symm)⟩
            · exact ⟨last, List.mem_cons_of_mem _ earlier, leads⟩

namespace Arena

variable {a : Arena} {h other : Handle} {limit : Nat}

theorem reaches_of_next? (next : a.next? h = some other) : a.linkage.Reaches h other :=
  .single ⟨.after h, rfl, next⟩

/-- All commands of a chain are reached from its start. -/
theorem reaches_of_mem_follow (member : other ∈ follow a.next? limit (some h)) :
    a.linkage.Reaches h other := by
  induction limit generalizing h with
  | zero => cases member
  | succ limit ih =>
      rw [follow, List.mem_cons] at member
      rcases member with rfl | behind
      · exact .refl
      · cases next : a.next? h with
        | none =>
            rw [next, follow_none] at behind
            cases behind
        | some following =>
            rw [next] at behind
            exact (reaches_of_next? next).trans (ih behind)

/-- What a live command reaches is live. -/
theorem contains_of_reaches (sound : a.linkage.Sound) (live : a.contains h)
    (reaches : a.linkage.Reaches h other) : a.contains other := by
  rcases Relation.ReflTransGen.cases_tail reaches with rfl | ⟨_, -, p, -, leads⟩
  · exact live
  · exact (sound.live leads).2

theorem nodup_follow (sound : a.linkage.Sound) : (follow a.next? limit (some h)).Nodup := by
  induction limit generalizing h with
  | zero => exact List.nodup_nil
  | succ limit ih =>
      rw [follow, List.nodup_cons]
      cases next : a.next? h with
      | none => simp
      | some following =>
          refine ⟨fun again => ?_, ih⟩
          have leads : a.linkage.target (.after h) = some following := next
          exact sound.not_reaches leads (reaches_of_mem_follow again)

/-- A chain is no longer than there are commands. -/
theorem length_follow_le_live (sound : a.linkage.Sound) (live : a.contains h) :
    (follow a.next? limit (some h)).length ≤ a.live := by
  have inside : follow a.next? limit (some h) ⊆ a.handles := fun other member =>
    mem_handles.mpr (contains_of_reaches sound live (reaches_of_mem_follow member))
  rw [← length_handles]
  exact (List.subperm_of_subset (nodup_follow sound) inside).length_le

theorem live_le_size (a : Arena) : a.live ≤ a.slots.size := by
  rw [a.live_eq]
  exact Array.countP_le_size

theorem length_follow_le (sound : a.linkage.Sound) (live : a.contains h) :
    (follow a.next? limit (some h)).length ≤ a.slots.size :=
  Nat.le_trans (length_follow_le_live sound live) a.live_le_size

@[simp] theorem chain_none (a : Arena) : a.chain none = [] := follow_none _ _

/-- The bound on walks is beyond the end of every chain. -/
theorem follow_eq (sound : a.linkage.Sound) {start : Option Handle}
    (live : ∀ h, start = some h → a.contains h) (enough : a.slots.size < limit) :
    follow a.next? limit start = follow a.next? (a.slots.size + 1) start := by
  induction limit with
  | zero => cases enough
  | succ limit ih =>
      rcases Nat.eq_or_lt_of_le (Nat.le_of_lt_succ enough) with same | more
      · rw [same]
      · rw [follow_of_short, ih more]
        cases start with
        | none =>
            rw [follow_none]
            exact Nat.lt_of_le_of_lt (Nat.zero_le _) more
        | some h => exact Nat.lt_of_le_of_lt (length_follow_le sound (live h rfl)) more

theorem size_lt_linkLimit (a : Arena) : a.slots.size < a.linkLimit :=
  Nat.lt_of_lt_of_le (Nat.lt_succ_self _) (Nat.le_mul_of_pos_left _ (Nat.succ_pos _))

/-- A chain is a command and the chain of what follows it. -/
theorem chain_some (sound : a.linkage.Sound) (h : Handle) :
    a.chain (some h) = h :: a.chain (a.next? h) := by
  have liveNext (other : Handle) (next : a.next? h = some other) : a.contains other :=
    (sound.live (p := .after h) next).2
  have bound := a.size_lt_linkLimit
  have longer : a.chain (some h) = h :: follow a.next? (a.linkLimit - 1) (a.next? h) := by
    rw [chain, ← Nat.sub_add_cancel (Nat.one_le_of_lt bound), follow, Nat.add_sub_cancel]
  rw [longer, chain]
  cases next : a.next? h with
  | none => rw [follow_none, follow_none]
  | some other =>
      -- There is a command, so the bound leaves room for one link more.
      obtain ⟨node, found⟩ := exists_node? (liveNext other next)
      have positive : 0 < a.slots.size := Nat.lt_of_le_of_lt (Nat.zero_le _) (slot_of_node? found).1
      have room : a.slots.size + 1 < a.linkLimit :=
        (Nat.lt_mul_iff_one_lt_left (Nat.succ_pos _)).mpr (Nat.succ_lt_succ positive)
      rw [← next, follow_eq sound liveNext (Nat.lt_sub_of_add_lt room), follow_eq sound liveNext bound]

/-- The chain goes on with what follows its commands. -/
theorem mem_chain_of_next? (sound : a.linkage.Sound) {start : Option Handle}
    (member : h ∈ a.chain start) (next : a.next? h = some other) : other ∈ a.chain start := by
  have live (first : Handle) (same : start = some first) : a.contains first := by
    by_cases stale : a.contains first
    · exact stale
    · have ends : a.next? first = none := by rw [next?, node?_of_stale stale]; rfl
      rw [same, chain_some sound, ends, chain_none, List.mem_singleton] at member
      rw [member, ends] at next
      cases next
  have more := mem_follow_of_link member next
  have bound := a.size_lt_linkLimit
  rw [follow_eq sound live (Nat.lt_succ_of_lt bound)] at more
  rw [chain, follow_eq sound live bound]
  exact more

theorem last_mem (a : Arena) (h : Handle) : a.last h ∈ a.chain (some h) := by
  have positive : 0 < a.linkLimit := Nat.mul_pos (Nat.succ_pos _) (Nat.succ_pos _)
  obtain ⟨limit, enough⟩ := Nat.exists_eq_add_one_of_ne_zero (Nat.ne_of_gt positive)
  rw [last, chain, enough, follow, List.getLastD_cons]
  exact List.getLastD_mem_cons

/-- Nothing follows the last command of a chain. -/
theorem next?_last (sound : a.linkage.Sound) (live : a.contains h) : a.next? (a.last h) = none := by
  refine next_getLastD_follow (Nat.lt_of_le_of_lt (length_follow_le sound live) ?_) h
  exact Nat.lt_of_lt_of_le (Nat.lt_succ_self _) (Nat.le_mul_of_pos_left _ (Nat.succ_pos _))

theorem reaches_last (a : Arena) (h : Handle) : a.linkage.Reaches h (a.last h) :=
  reaches_of_mem_follow (a.last_mem h)

/-- The chain of a handle that resolves to nothing is the handle. -/
theorem last_of_stale (stale : ¬ a.contains h) : a.last h = h := by
  have next : a.next? h = none := by
    rw [next?, node?_of_stale stale]
    rfl
  have single : a.chain (some h) = [h] := by
    unfold chain
    cases limit : a.linkLimit with
    | zero => exact absurd limit (Nat.mul_ne_zero (Nat.succ_ne_zero _) (Nat.succ_ne_zero _))
    | succ limit => rw [follow, next, follow_none]
  rw [last, single]
  rfl

end Arena

end MissionScript
