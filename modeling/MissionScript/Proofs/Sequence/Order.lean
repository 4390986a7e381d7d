import Mathlib.Order.Defs.Unbundled
import MissionScript.Proofs.Sequence.Ownership

/-!
# The order on a chain

The links to the next command lead from each command to at most one other and to each from at most one,
so two commands that links join at all lie one behind the other. Walks along these links and walks back
along them see the same chain: both come to an end, the one at the last command and the other at the
first.
-/

namespace MissionScript

/-- A walk gets only to what the links reach. -/
theorem reflTransGen_of_mem_follow {link : Handle → Option Handle} {limit : Nat} {h other : Handle}
    (member : other ∈ follow link limit (some h)) :
    Relation.ReflTransGen (fun first second => link first = some second) h other := by
  induction limit generalizing h with
  | zero => cases member
  | succ limit ih =>
      rw [follow, List.mem_cons] at member
      rcases member with rfl | behind
      · exact .refl
      · cases onward : link h with
        | none =>
            rw [onward, follow_none] at behind
            cases behind
        | some next =>
            rw [onward] at behind
            exact .head onward (ih behind)

/-- Where no links lead back to their start, a walk comes to no handle twice. -/
theorem nodup_follow_of_acyclic {link : Handle → Option Handle}
    (acyclic : ∀ h, ¬ Relation.TransGen (fun first second => link first = some second) h h)
    (limit : Nat) (h : Handle) : (follow link limit (some h)).Nodup := by
  induction limit generalizing h with
  | zero => exact List.nodup_nil
  | succ limit ih =>
      rw [follow, List.nodup_cons]
      cases onward : link h with
      | none => simp
      | some next =>
          refine ⟨fun again => ?_, ih next⟩
          exact acyclic h (.head' onward (reflTransGen_of_mem_follow again))

namespace Arena

variable {a : Arena} {h other : Handle} {limit : Nat}

/-- The link to the next command leads from one command to another. -/
def Leads (a : Arena) (h other : Handle) : Prop := a.next? h = some other

/-- Links to the next command join two commands, whichever way they lead. -/
def SameChain (a : Arena) : Handle → Handle → Prop := Relation.EqvGen a.Leads

/-- A command stands at a place of its chain no later than another one. -/
def NoLater (a : Arena) (h other : Handle) : Prop := Relation.ReflTransGen a.Leads h other

section

variable (sound : a.linkage.Sound)

include sound

/-- A command is on the chain from another one on if the links lead there. -/
theorem isAfter_iff : a.isAfter h other ↔ a.NoLater other h := by
  rw [isAfter, List.contains_iff_mem]
  constructor
  · exact reflTransGen_of_mem_follow
  · intro reached
    induction reached with
    | refl => exact mem_chain_self sound other
    | tail _ leads ih => exact mem_chain_of_next? sound ih leads

omit sound in
theorem rightUnique_leads : Relator.RightUnique a.Leads := by
  intro h first second leads leadsToo
  exact Option.some.inj (leads.symm.trans leadsToo)

/-- The ways back are the links to the next command the other way round. -/
theorem swap_leads : Function.swap a.Leads = fun h other => a.previous? h = some other := by
  funext h other
  exact propext (sound.back other h)

theorem rightUnique_swap_leads : Relator.RightUnique (Function.swap a.Leads) := by
  rw [swap_leads sound]
  intro h first second back backToo
  exact Option.some.inj (back.symm.trans backToo)

omit sound in
theorem NoLater.reaches (before : a.NoLater h other) : a.linkage.Reaches h other :=
  Relation.ReflTransGen.mono (fun _ _ leads => .of_target (p := .after _) leads) _ _ before

omit sound in
theorem NoLater.sameChain (before : a.NoLater h other) : a.SameChain h other := by
  induction before with
  | refl => exact .refl h
  | tail _ leads ih => exact .trans _ _ _ ih (.rel _ _ leads)

theorem not_transGen_leads (h : Handle) : ¬ Relation.TransGen a.Leads h h := fun around =>
  sound.acyclic h (Relation.TransGen.mono (fun _ _ leads => .of_target (p := .after _) leads) _ _ around)

theorem NoLater.antisymm (before : a.NoLater h other) (behind : a.NoLater other h) : h = other := by
  rcases Relation.reflTransGen_iff_eq_or_transGen.mp before with same | onward
  · exact same.symm
  · exact absurd (onward.trans_left behind) (not_transGen_leads sound h)

/-- Two commands of a chain lie one behind the other. -/
theorem SameChain.noLater_or (same : a.SameChain h other) : a.NoLater h other ∨ a.NoLater other h := by
  induction same with
  | rel first second leads => exact .inl (.single leads)
  | refl h => exact .inl .refl
  | symm first second _ ih => exact ih.symm
  | trans first middle last _ _ left right =>
      rcases left with left | left <;> rcases right with right | right
      · exact .inl (left.trans right)
      · -- Both lie in front of the middle one, and there is one way back from there.
        have back := Relation.ReflTransGen.total_of_right_unique (rightUnique_swap_leads sound)
          (Relation.reflTransGen_swap.mpr left) (Relation.reflTransGen_swap.mpr right)
        exact back.symm.imp Relation.reflTransGen_swap.mp Relation.reflTransGen_swap.mp
      · exact Relation.ReflTransGen.total_of_right_unique rightUnique_leads left right
      · exact .inr (right.trans left)

/-! ## The ends of a chain -/

/-- The way back from a command goes along what reaches it. -/
theorem noLater_of_mem_back (member : other ∈ follow a.previous? limit (some h)) :
    a.NoLater other h := by
  have reached := reflTransGen_of_mem_follow member
  rw [← swap_leads sound] at reached
  exact Relation.reflTransGen_swap.mp reached

theorem nodup_back (limit : Nat) (h : Handle) : (follow a.previous? limit (some h)).Nodup := by
  refine nodup_follow_of_acyclic (fun h around => ?_) limit h
  rw [← swap_leads sound] at around
  exact not_transGen_leads sound h (Relation.transGen_swap.mp around)

theorem contains_of_noLater (live : a.contains h) (before : a.NoLater other h) : a.contains other := by
  rcases Relation.ReflTransGen.cases_head before with rfl | ⟨next, leads, -⟩
  · exact live
  · exact (sound.live (p := .after other) leads).1

theorem SameChain.contains (same : a.SameChain h other) (live : a.contains h) : a.contains other :=
  (same.noLater_or sound).elim (fun onward => contains_of_reaches sound live onward.reaches)
    (contains_of_noLater sound live)

/-- A way back takes no more steps than there are commands. -/
theorem length_back_le (live : a.contains h) :
    (follow a.previous? limit (some h)).length ≤ a.slots.size := by
  have inside : follow a.previous? limit (some h) ⊆ a.handles := fun other member =>
    mem_handles.mpr (contains_of_noLater sound live (noLater_of_mem_back sound member))
  refine Nat.le_trans ?_ a.live_le_size
  rw [← length_handles]
  exact (List.subperm_of_subset (nodup_back sound limit h) inside).length_le

omit sound in
theorem first_mem (a : Arena) (h : Handle) : a.first h ∈ follow a.previous? a.linkLimit (some h) := by
  have positive : 0 < a.linkLimit := Nat.mul_pos (Nat.succ_pos _) (Nat.succ_pos _)
  obtain ⟨limit, enough⟩ := Nat.exists_eq_add_one_of_ne_zero (Nat.ne_of_gt positive)
  rw [first, enough, follow, List.getLastD_cons]
  exact List.getLastD_mem_cons

theorem first_noLater (h : Handle) : a.NoLater (a.first h) h :=
  noLater_of_mem_back sound (a.first_mem h)

/-- Nothing is before the first command of a chain. -/
theorem previous?_first (live : a.contains h) : a.previous? (a.first h) = none :=
  next_getLastD_follow (Nat.lt_of_le_of_lt (length_back_le sound live) a.size_lt_linkLimit) h

/-- The first command of a chain is in front of all others. -/
theorem first_noLater_of_sameChain (live : a.contains h) (same : a.SameChain h other) :
    a.NoLater (a.first h) other := by
  have joined : a.SameChain (a.first h) other := .trans _ _ _ (first_noLater sound h).sameChain same
  refine (joined.noLater_or sound).elim id fun behind => ?_
  rcases Relation.ReflTransGen.cases_tail behind with here | ⟨last, -, leads⟩
  · exact here ▸ .refl
  · have back : a.previous? (a.first h) = some last := (sound.back last (a.first h)).mp leads
    rw [previous?_first sound live] at back
    cases back

omit sound in
theorem noLater_last (a : Arena) (h : Handle) : a.NoLater h (a.last h) :=
  reflTransGen_of_mem_follow (a.last_mem h)

/-- The last command of a chain is behind all others. -/
theorem noLater_last_of_sameChain (live : a.contains h) (same : a.SameChain h other) :
    a.NoLater other (a.last h) := by
  have joined : a.SameChain other (a.last h) :=
    .trans _ _ _ (.symm _ _ same) (noLater_last a h).sameChain
  refine (joined.noLater_or sound).elim id fun behind => ?_
  rcases Relation.ReflTransGen.cases_head behind with here | ⟨next, leads, -⟩
  · exact here ▸ .refl
  · rw [Leads, next?_last sound live] at leads
    cases leads

end

/-- The order on the chains of an arena: the commands that links join are ordered by what the links
reach, from the first command to the last one, and no others are. -/
theorem isAfter_orders (wf : a.WellFormed) :
    (∀ h other, a.isAfter h other ↔ Relation.ReflTransGen a.Leads other h) ∧
    (∀ h, IsLinearOrder {other // a.SameChain h other} fun first second => a.isAfter second first) ∧
    (∀ h other, a.contains h → a.SameChain h other →
      a.SameChain h (a.first other) ∧ a.isAfter h (a.first other) ∧
      a.SameChain h (a.last other) ∧ a.isAfter (a.last other) h) ∧
    ∀ h other, ¬ a.SameChain h other → ¬ a.isAfter h other ∧ ¬ a.isAfter other h := by
  have sound := wf.sound
  refine ⟨fun _ _ => isAfter_iff sound, fun h => ?_, fun h other live same => ?_,
    fun h other apart => ?_⟩
  · exact
      { refl := fun _ => (isAfter_iff sound).mpr .refl
        trans := fun _ _ _ before behind =>
          (isAfter_iff sound).mpr (.trans ((isAfter_iff sound).mp before) ((isAfter_iff sound).mp behind))
        antisymm := fun _ _ before behind => Subtype.ext
          (((isAfter_iff sound).mp before).antisymm sound ((isAfter_iff sound).mp behind))
        total := fun ⟨first, onFirst⟩ ⟨second, onSecond⟩ =>
          (SameChain.noLater_or sound (.trans _ _ _ (.symm _ _ onFirst) onSecond)).imp
            (isAfter_iff sound).mpr (isAfter_iff sound).mpr }
  · have back : a.SameChain other h := .symm _ _ same
    have liveToo := same.contains sound live
    exact ⟨.trans _ _ _ same (.symm _ _ (first_noLater sound other).sameChain),
      (isAfter_iff sound).mpr (first_noLater_of_sameChain sound liveToo back),
      .trans _ _ _ same (noLater_last a other).sameChain,
      (isAfter_iff sound).mpr (noLater_last_of_sameChain sound liveToo back)⟩
  · exact ⟨fun after => apart (.symm _ _ ((isAfter_iff sound).mp after).sameChain),
      fun after => apart ((isAfter_iff sound).mp after).sameChain⟩

/-- The chain of a branch inside of another chain. -/
theorem isAfter_orders_branch : sample.WellFormed ∧ sample.contains (.ofIndex 8) ∧
    sample.SameChain (.ofIndex 8) (.ofIndex 7) ∧
    sample.isAfter (.ofIndex 8) (sample.first (.ofIndex 7)) ∧
    sample.first (.ofIndex 7) = .ofIndex 7 ∧ sample.last (.ofIndex 7) = .ofIndex 8 := by
  have live : sample.contains (.ofIndex 8) := by decide +kernel
  have next : sample.next? (.ofIndex 7) = some (.ofIndex 8) := by decide +kernel
  have same : sample.SameChain (.ofIndex 8) (.ofIndex 7) := .symm _ _ (.rel _ _ next)
  have ends := (isAfter_orders wellFormed_sample).2.2.1 _ _ live same
  exact ⟨wellFormed_sample, live, same, ends.2.1, by decide +kernel, by decide +kernel⟩

end Arena

end MissionScript
