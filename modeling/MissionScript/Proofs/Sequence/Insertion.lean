import MissionScript.Proofs.Sequence.Chain

/-!
# Putting commands in

A new command has no links. A command without links can be linked at the end of a chain, first in a
branch, or behind another command, as long as that is not in its own tree.
-/

namespace MissionScript

namespace Arena

variable {a b c : Arena} {h other head : Handle} {p : Point} {node : Node}

/-! ## Adding a command -/

theorem linkage_insert (a : Arena) (command : Command) :
    (a.insert command).2.linkage = a.linkage.add (a.insert command).1 := by
  obtain ⟨absent, nodes⟩ := a.node?_insert command
  have empty (p : Point) : p.read? (.ofCommand command) = none := by
    cases p with
    | after last => rfl
    | inside owner branch =>
        rw [Point.read?, Node.ofCommand]
        split
        · cases branch <;> rfl
        · rfl
  refine Linkage.ext (funext fun other => propext ?_) (funext fun p => ?_) (funext fun other => ?_)
  · rw [live_linkage, contains, nodes]
    by_cases same : other = (a.insert command).1
    · simp [same, Linkage.add]
    · simp [same, Linkage.add, contains]
  · rw [target_linkage, target?_eq, nodes]
    split
    · rename_i here
      rw [Option.bind_some, empty]
      exact (target?_eq a p).trans (by rw [here, absent]; rfl) |>.symm
    · exact (target?_eq a p).symm
  · rw [previous_linkage, previous?, nodes]
    split
    · rename_i here
      change none = a.previous? other
      rw [here, previous?, absent]
      rfl
    · rfl

theorem WellFormed.insert (wf : a.WellFormed) (command : Command) :
    (a.insert command).2.WellFormed := by
  refine wellFormed_iff.mpr ⟨?_, fun h node found own => ?_⟩
  · rw [linkage_insert]
    exact wf.sound.add
  · rw [(a.node?_insert command).2] at found
    split at found
    · cases found
      cases owns : command.kind.ownsBranches with
      | true => exact owns
      | false => exact absurd (by simp [Node.ofCommand, owns]) own
    · exact wf.branches h node found own

theorem command?_insert (a : Arena) (command : Command) :
    (a.insert command).2.command? (a.insert command).1 = some command ∧
      ∀ other held, a.command? other = some held →
        (a.insert command).2.command? other = some held := by
  obtain ⟨absent, nodes⟩ := a.node?_insert command
  constructor
  · rw [command?, nodes, if_pos rfl]
    rfl
  · intro other held found
    have different : other ≠ (a.insert command).1 := by
      rintro rfl
      rw [command?, absent] at found
      cases found
    rw [command?, nodes, if_neg different]
    exact found

/-- A new command has no links, and none leads to it. -/
theorem WellFormed.detached_insert (wf : a.WellFormed) (command : Command) :
    (a.insert command).2.Detached (a.insert command).1 := by
  obtain ⟨absent, nodes⟩ := a.node?_insert command
  have found : (a.insert command).2.node? (a.insert command).1 = some (.ofCommand command) := by
    rw [nodes, if_pos rfl]
  refine ⟨⟨by rw [previous?, found]; rfl, fun owner branch leads => ?_⟩, contains_of_node? found,
    by rw [next?, found]; rfl⟩
  have before : a.target? (.inside owner branch) = some (a.insert command).1 := by
    have both := congrFun (congrArg Linkage.target (a.linkage_insert command)) (.inside owner branch)
    exact both.symm.trans leads
  have live := wf.live _ _ before
  rw [contains, absent] at live
  cases live

/-- No other command is in the tree of a new one. -/
theorem not_reaches_insert (a : Arena) (command : Command) {other : Handle} (live : a.contains other) :
    ¬ (a.insert command).2.linkage.Reaches (a.insert command).1 other := by
  obtain ⟨absent, nodes⟩ := a.node?_insert command
  intro reaches
  rcases Relation.ReflTransGen.cases_head reaches with same | ⟨next, owns, -⟩
  · rw [← same, contains, absent] at live
    cases live
  · obtain ⟨p, anchor, leads⟩ := owns
    rw [linkage_insert] at leads
    have live := contains_anchor (a := a) leads
    rw [anchor, contains, absent] at live
    cases live

/-! ## Linking a command -/

section

variable (wf : a.WellFormed) (detached : a.Detached h)

include wf detached

theorem WellFormed.of_linked (becomes : a.Becomes b (a.linkage.relink p (some h)))
    (free : a.target? p = none) (anchor : a.contains p.anchor)
    (apart : ¬ a.linkage.Reaches h p.anchor) : b.WellFormed :=
  wf.of_becomes becomes (wf.sound.lay free anchor detached.live (detached.unowned wf) apart)

/-- A command is linked at the end of a chain that is there. -/
theorem WellFormed.exists_append (live : a.contains head) (apart : ¬ a.linkage.Reaches h head) :
    ∃ b, Edit.append head h a = (.ok (), b) ∧ b.WellFormed ∧ b.command? = a.command? := by
  have liveLast := contains_of_reaches wf.sound live (a.reaches_last head)
  obtain ⟨b, ran, becomes⟩ := Edit.setNext_becomes liveLast (some h) fun other same => by
    cases same
    exact detached.live
  refine ⟨b, ran, ?_, becomes.commands⟩
  refine wf.of_linked detached becomes (next?_last wf.sound live) liveLast fun reaches => ?_
  rcases wf.sound.reaches_or_reaches reaches (a.reaches_last head) with before | before
  · exact apart before
  · exact apart ((detached.unowned wf).eq_of_reaches before ▸ .refl)

theorem WellFormed.append (apart : ¬ a.linkage.Reaches h head) :
    (Edit.append head h a).2.WellFormed := by
  by_cases live : a.contains head
  · obtain ⟨b, ran, linked, -⟩ := wf.exists_append detached live apart
    rw [ran]
    exact linked
  · unfold Edit.append
    rw [Step.get_bind, last_of_stale live, Edit.setNext, Edit.forceNext,
      Step.bind_error (Edit.modifyNode_stale live)]
    exact wf

/-- A command is linked at the end of a branch of a command that owns branches. -/
theorem WellFormed.exists_appendToBranch {owner : Handle} (branch : Nat) {command : Command}
    (found : a.command? owner = some command) (owns : command.kind.ownsBranches)
    (apart : ¬ a.linkage.Reaches h owner) :
    ∃ b, Edit.appendToBranch owner branch h a = (.ok (), b) ∧ b.WellFormed ∧
      b.command? = a.command? := by
  unfold Edit.appendToBranch
  rw [Step.get_bind]
  cases start : a.child? owner branch with
  | some first =>
      have leads : a.linkage.target (.inside owner branch) = some first := start
      refine wf.exists_append detached (wf.live (.inside owner branch) first start)
        fun reaches => apart ?_
      exact (wf.sound.reaches_iff (detached.unowned wf) leads).mpr reaches
  | none =>
      obtain ⟨node, held, rfl⟩ := Option.map_eq_some_iff.mp found
      obtain ⟨b, ran, becomes⟩ := Edit.setBranch_becomes held (.inr owns) branch (some h)
        fun other same => by
          cases same
          exact detached.live
      have linked := wf.of_linked detached becomes start (contains_of_node? held) apart
      exact ⟨b, ran, linked, becomes.commands⟩

theorem WellFormed.appendToBranch {owner : Handle} {branch : Nat}
    (owns : ∀ command, a.command? owner = some command → command.kind.ownsBranches)
    (apart : ¬ a.linkage.Reaches h owner) :
    (Edit.appendToBranch owner branch h a).2.WellFormed := by
  cases found : a.command? owner with
  | some command =>
      obtain ⟨b, ran, linked, -⟩ :=
        wf.exists_appendToBranch detached branch found (owns command found) apart
      rw [ran]
      exact linked
  | none =>
      have stale : ¬ a.contains owner := by rw [contains_eq, found]; exact Bool.false_ne_true
      have vacant : a.child? owner branch = none := by rw [child?, node?_of_stale stale]; rfl
      unfold Edit.appendToBranch
      rw [Step.get_bind, vacant]
      dsimp only
      rw [Edit.setBranch, Step.bind_error (Edit.modifyNode_stale stale)]
      exact wf

theorem WellFormed.insertAfter {previous : Handle} (apart : ¬ a.linkage.Reaches h previous) :
    (Edit.insertAfter previous h a).2.WellFormed := by
  unfold Edit.insertAfter
  by_cases live : a.contains previous
  · obtain ⟨node, found⟩ := exists_node? live
    have next : a.next? previous = node.next := by rw [next?, found]; rfl
    obtain ⟨b, ran, first⟩ := Edit.setNext_becomes detached.live node.next fun other same =>
      wf.live (.after previous) other (next.trans same)
    obtain ⟨c, ranThen, second⟩ := Edit.setNext_becomes ((first.contains previous).trans live)
      (some h) fun other same => by
        cases same
        exact (first.contains h).trans detached.live
    rw [first.linkage, ← next] at second
    rw [Step.bind_ok (Edit.node_eq found), Step.bind_ok ran, ranThen]
    exact wf.of_becomes (first.trans second)
      (wf.sound.putAfter live detached.live (detached.unowned wf) detached.next apart)
  · rw [Step.bind_error (Edit.node_stale live)]
    exact wf

end

end Arena

end MissionScript
