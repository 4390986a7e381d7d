import MissionScript.Proofs.Sequence.Linkage
import MissionScript.Proofs.Sequence.Slots
import MissionScript.Proofs.Sequence.Tree

/-!
# Well-formed arenas

The links of a well-formed arena make trees: a chain leads back the way it leads on, and no command is
in two places. This module tells what the single edits do to the links, and which of them keep an arena
well formed.
-/

namespace MissionScript

/-- Where the link at a point leads, read off the node of its anchor. -/
def Point.read? : Point → Node → Option Handle
  | after _, node => node.next
  | inside _ branch, node => (node.branches[branch]?).join

namespace Arena

/-- The links of an arena. -/
def linkage (a : Arena) : Linkage where
  live h := a.contains h
  target := a.target?
  previous := a.previous?

/-- Only commands of a kind that owns branches have any. -/
def BranchesOwned (a : Arena) : Prop :=
  ∀ h node, a.node? h = some node → node.branches ≠ [] → node.command.kind.ownsBranches

/-- Nothing is before a command, and it is in no branch. -/
structure IsRoot (a : Arena) (h : Handle) : Prop where
  previous : a.previous? h = none
  outside : ∀ owner branch, a.child? owner branch ≠ some h

/-- A root that nothing follows. -/
structure Detached (a : Arena) (h : Handle) : Prop extends IsRoot a h where
  live : a.contains h
  next : a.next? h = none

/-- Chains lead back the way they lead on, and every command is in at most one place. -/
structure WellFormed (a : Arena) : Prop where
  /-- All links and all ways back lead to live commands. -/
  live : ∀ p h, a.target? p = some h → a.contains h
  liveBack : ∀ h other, a.previous? h = some other → a.contains other
  back : ∀ h other, a.next? h = some other ↔ a.previous? other = some h
  branches : a.BranchesOwned
  /-- A command is a root or has exactly one owner. -/
  owner : ∀ h, a.contains h →
    a.IsRoot h ∨ ∃ p, a.target? p = some h ∧ ∀ q, a.target? q = some h → q = p
  acyclic : ∀ h, ¬ Relation.TransGen a.linkage.Owns h h

/-- `b` holds the commands of `a` with other links. -/
structure Becomes (a b : Arena) (l : Linkage) : Prop where
  linkage : b.linkage = l
  commands : b.command? = a.command?
  branches : a.BranchesOwned → b.BranchesOwned

variable {a b c : Arena} {h other : Handle} {p : Point} {node : Node} {l m : Linkage}

@[simp] theorem target_linkage : a.linkage.target = a.target? := rfl

@[simp] theorem previous_linkage : a.linkage.previous = a.previous? := rfl

@[simp] theorem live_linkage : a.linkage.live h ↔ a.contains h := Iff.rfl

theorem contains_eq : a.contains h = (a.command? h).isSome := by
  rw [contains, command?, Option.isSome_map]

theorem contains_of_node? (found : a.node? h = some node) : a.contains h := by
  rw [contains, found]
  rfl

theorem exists_node? (live : a.contains h) : ∃ node, a.node? h = some node :=
  Option.isSome_iff_exists.mp live

theorem node?_of_stale (stale : ¬ a.contains h) : a.node? h = none :=
  Option.not_isSome_iff_eq_none.mp stale

theorem target?_eq (a : Arena) (p : Point) : a.target? p = (a.node? p.anchor).bind p.read? := by
  cases p <;> rfl

theorem target?_of_node? (found : a.node? p.anchor = some node) : a.target? p = p.read? node := by
  rw [target?_eq, found]
  rfl

/-- Links lead from live commands. -/
theorem contains_anchor (leads : a.target? p = some h) : a.contains p.anchor := by
  rw [target?_eq] at leads
  obtain ⟨node, found, -⟩ := Option.bind_eq_some_iff.mp leads
  exact contains_of_node? found

theorem IsRoot.unowned (root : a.IsRoot h) (sound : a.linkage.Sound) : a.linkage.Unowned h :=
  sound.unowned_iff.mpr ⟨root.previous, root.outside⟩

theorem IsRoot.of_unowned (sound : a.linkage.Sound) (unowned : a.linkage.Unowned h) : a.IsRoot h :=
  ⟨(sound.unowned_iff.mp unowned).1, (sound.unowned_iff.mp unowned).2⟩

/-- Well-formed arenas are those with sound links whose branches are owned. -/
theorem wellFormed_iff : a.WellFormed ↔ a.linkage.Sound ∧ a.BranchesOwned := by
  constructor
  · intro wf
    refine ⟨⟨⟨fun leads => ⟨contains_anchor leads, wf.live _ _ leads⟩, ?_⟩, wf.back, wf.acyclic⟩,
      wf.branches⟩
    intro p q h leads leadsToo
    rcases wf.owner h (wf.live _ _ leads) with root | ⟨own, -, only⟩
    · cases p with
      | after last =>
          have back := (wf.back last h).mp leads
          rw [root.previous] at back
          cases back
      | inside owner branch => exact absurd leads (root.outside owner branch)
    · rw [only p leads, only q leadsToo]
  · rintro ⟨sound, branches⟩
    refine ⟨fun p h leads => (sound.live leads).2, fun h other back => ?_, sound.back, branches,
      fun h live => ?_, sound.acyclic⟩
    · exact (sound.live ((sound.back other h).mpr back)).1
    · by_cases owned : ∃ p, a.target? p = some h
      · obtain ⟨p, leads⟩ := owned
        exact .inr ⟨p, leads, fun q leadsToo => sound.single leadsToo leads⟩
      · have unowned : a.linkage.Unowned h := fun p leads => owned ⟨p, leads⟩
        obtain ⟨previous, outside⟩ := sound.unowned_iff.mp unowned
        exact .inl ⟨previous, outside⟩

namespace WellFormed

theorem sound (wf : a.WellFormed) : a.linkage.Sound := (wellFormed_iff.mp wf).1

theorem of_becomes (wf : a.WellFormed) (becomes : a.Becomes b l) (sound : l.Sound) : b.WellFormed :=
  wellFormed_iff.mpr ⟨becomes.linkage ▸ sound, becomes.branches wf.branches⟩

end WellFormed

theorem Detached.unowned (detached : a.Detached h) (wf : a.WellFormed) : a.linkage.Unowned h :=
  detached.toIsRoot.unowned wf.sound

theorem wellFormed_empty : empty.WellFormed := by
  have unlinked (p : Point) : empty.target? p = none := by cases p <;> rfl
  have absent (p : Point) (h : Handle) : empty.target? p ≠ some h := by simp [unlinked]
  refine wellFormed_iff.mpr ⟨⟨⟨fun leads => (absent _ _ leads).elim, fun leads => (absent _ _ leads).elim⟩,
    fun h other => ?_, fun h cycle => ?_⟩, fun h node found => ?_⟩
  · exact ⟨fun leads => (absent (.after h) other leads).elim, fun back => by cases back⟩
  · obtain ⟨_, -, p, -, leads⟩ := Relation.TransGen.tail'_iff.mp cycle
    exact absent _ _ leads
  · cases found

/-! ## Changing a node -/

section

variable {α : Type} {f : Node → Node} {g : Node → Option α} (changed : a.modify? h f = some b)

include changed

theorem bind_node?_of_modify? (found : a.node? h = some node) : (b.node? h).bind g = g (f node) := by
  rw [node?_of_modify? changed, if_pos rfl, found]
  rfl

theorem bind_node?_of_ne (different : other ≠ h) :
    (b.node? other).bind g = (a.node? other).bind g := by
  rw [node?_of_modify? changed, if_neg different]

/-- What the change keeps is kept of every node. -/
theorem bind_node?_of_same (same : ∀ node, g (f node) = g node) (other : Handle) :
    (b.node? other).bind g = (a.node? other).bind g := by
  rw [node?_of_modify? changed]
  split
  · rename_i here
    rw [here]
    cases a.node? h with
    | none => rfl
    | some node => exact same node
  · rfl

end

namespace Becomes

theorem trans (first : a.Becomes b l) (second : b.Becomes c m) : a.Becomes c m where
  linkage := second.linkage
  commands := second.commands.trans first.commands
  branches := second.branches ∘ first.branches

theorem contains (becomes : a.Becomes b l) (h : Handle) : b.contains h = a.contains h := by
  rw [contains_eq, contains_eq, becomes.commands]

/-- The node of a command is changed, but not the command. -/
theorem of_modify? {f : Node → Node} (changed : a.modify? h f = some b)
    (same : ∀ node, (f node).command = node.command)
    (branches : ∀ node, a.node? h = some node → (f node).branches ≠ [] →
      node.branches ≠ [] ∨ node.command.kind.ownsBranches)
    (target : ∀ p, b.target? p = l.target p) (previous : ∀ h, b.previous? h = l.previous h)
    (live : ∀ h, l.live h ↔ a.contains h) : a.Becomes b l := by
  have nodes := node?_of_modify? changed
  have commands : b.command? = a.command? := by
    funext other
    rw [command?, command?, nodes]
    split
    · rename_i here
      rw [here]
      cases a.node? h with
      | none => rfl
      | some node => exact congrArg some (same node)
    · rfl
  refine ⟨?_, commands, fun owned other node found own => ?_⟩
  · refine Linkage.ext (funext fun other => propext ?_) (funext target) (funext previous)
    rw [live, live_linkage, contains_eq, contains_eq, commands]
  · rw [nodes] at found
    split at found
    · obtain ⟨before, held, rfl⟩ := Option.map_eq_some_iff.mp found
      rw [same]
      exact (branches before held own).elim (owned h before held) id
    · exact owned other node found own

end Becomes

end Arena

/-- The first command of a branch is changed, and no other branch. -/
theorem Node.branch_setBranch (node : Node) (branch number : Nat) (head : Option Handle) :
    ((node.setBranch branch head).branches[number]?).join =
      if number = branch then head else (node.branches[number]?).join := by
  have wide : branch < node.branches.length + (branch + 1 - node.branches.length) := by omega
  unfold setBranch
  by_cases same : number = branch
  · subst same
    simp [wide]
  · rw [if_neg same]
    dsimp only
    rw [List.getElem?_set_ne (Ne.symm same), List.getElem?_append]
    split
    · rfl
    · rename_i beyond
      rw [List.getElem?_replicate, List.getElem?_eq_none (Nat.le_of_not_lt beyond)]
      split
      · rfl
      · rfl

namespace Edit

open Arena

variable {a : Arena} {h owner : Handle}

/-! ## Single edits -/

theorem modifyNode_stale {f : Node → Node} (stale : ¬ a.contains h) :
    modifyNode h f a = (.error (.staleHandle h), a) := by
  unfold modifyNode
  rw [Step.get_bind, modify?_eq_none.mpr (node?_of_stale stale)]
  rfl

theorem forceNext_becomes (live : a.contains h) (next : Option Handle) :
    ∃ b, forceNext h next a = (.ok (), b) ∧
      a.Becomes b (a.linkage.withTarget (.after h) next) := by
  obtain ⟨node, found⟩ := exists_node? live
  obtain ⟨b, changed⟩ := exists_modify? found ({ · with next })
  refine ⟨b, modifyNode_eq changed, .of_modify? changed (fun _ => rfl) (fun _ _ => .inl) (fun p => ?_)
    (bind_node?_of_same changed fun _ => rfl) fun _ => .rfl⟩
  rw [Linkage.target_withTarget]
  cases p with
  | after last =>
      by_cases same : last = h
      · rw [if_pos (congrArg _ same), same]
        exact bind_node?_of_modify? changed found
      · rw [if_neg (same ∘ Point.after.inj)]
        exact bind_node?_of_ne changed same
  | inside owner branch => exact bind_node?_of_same changed (fun _ => rfl) owner

theorem setPrevious_becomes (live : a.contains h) (previous : Option Handle) :
    ∃ b, setPrevious h previous a = (.ok (), b) ∧
      a.Becomes b (a.linkage.withPrevious h previous) := by
  obtain ⟨node, found⟩ := exists_node? live
  obtain ⟨b, changed⟩ := exists_modify? found ({ · with previous })
  refine ⟨b, modifyNode_eq changed, .of_modify? changed (fun _ => rfl) (fun _ _ => .inl) (fun p => ?_)
    (fun other => ?_) fun _ => .rfl⟩
  · cases p with
    | after last => exact bind_node?_of_same changed (fun _ => rfl) last
    | inside owner branch => exact bind_node?_of_same changed (fun _ => rfl) owner
  · rw [Linkage.previous_withPrevious]
    by_cases same : other = h
    · rw [if_pos same, same]
      exact bind_node?_of_modify? changed found
    · rw [if_neg same]
      exact bind_node?_of_ne changed same

/-- A branch may be changed if its owner is of a kind that owns branches or has some. -/
theorem modifyBranch_becomes {node : Node} (found : a.node? owner = some node)
    (owns : node.branches ≠ [] ∨ node.command.kind.ownsBranches) (branch : Nat) (head : Option Handle) :
    ∃ b, modifyNode owner (·.setBranch branch head) a = (.ok (), b) ∧
      a.Becomes b (a.linkage.withTarget (.inside owner branch) head) := by
  obtain ⟨b, changed⟩ := exists_modify? found (·.setBranch branch head)
  have owned (held : Node) (same : a.node? owner = some held) :
      held.branches ≠ [] ∨ held.command.kind.ownsBranches := by
    cases found.symm.trans same
    exact owns
  refine ⟨b, modifyNode_eq changed, .of_modify? changed (fun _ => rfl)
    (fun held same _ => owned held same) (fun p => ?_) (bind_node?_of_same changed fun _ => rfl)
    fun _ => .rfl⟩
  rw [Linkage.target_withTarget]
  cases p with
  | after last => exact bind_node?_of_same changed (fun _ => rfl) last
  | inside other number =>
      by_cases same : other = owner
      · have here := bind_node?_of_modify? (g := fun node => (node.branches[number]?).join) changed found
        rw [same, target?, child?, here, node.branch_setBranch]
        simp [target?, child?, found]
      · rw [if_neg (same ∘ And.left ∘ Point.inside.inj)]
        exact bind_node?_of_ne changed same

/-- Linking to the next command lays the link and the way back. -/
theorem setNext_becomes (live : a.contains h) (next : Option Handle)
    (liveNext : ∀ other, next = some other → a.contains other) :
    ∃ b, setNext h next a = (.ok (), b) ∧ a.Becomes b (a.linkage.relink (.after h) next) := by
  obtain ⟨b, ran, becomes⟩ := forceNext_becomes live next
  unfold setNext
  rw [Step.bind_ok ran]
  cases next with
  | none => exact ⟨b, rfl, becomes⟩
  | some next =>
      have still : b.contains next := (becomes.contains next).trans (liveNext next rfl)
      obtain ⟨c, ranToo, then_⟩ := setPrevious_becomes still (some h)
      rw [becomes.linkage] at then_
      exact ⟨c, ranToo, becomes.trans then_⟩

theorem setBranch_becomes {node : Node} (found : a.node? owner = some node)
    (owns : node.branches ≠ [] ∨ node.command.kind.ownsBranches) (branch : Nat) (head : Option Handle)
    (liveHead : ∀ other, head = some other → a.contains other) :
    ∃ b, setBranch owner branch head a = (.ok (), b) ∧
      a.Becomes b (a.linkage.relink (.inside owner branch) head) := by
  obtain ⟨b, ran, becomes⟩ := modifyBranch_becomes found owns branch head
  unfold setBranch
  rw [Step.bind_ok ran]
  cases head with
  | none => exact ⟨b, rfl, becomes⟩
  | some head =>
      have still : b.contains head := (becomes.contains head).trans (liveHead head rfl)
      obtain ⟨c, ranToo, then_⟩ := setPrevious_becomes still none
      rw [becomes.linkage] at then_
      exact ⟨c, ranToo, becomes.trans then_⟩

/-! ## Taking a command off its chain -/

theorem node_eq {node : Node} (found : a.node? h = some node) : Edit.node h a = (.ok node, a) := by
  unfold Edit.node
  rw [Step.get_bind, found]
  rfl

theorem node_stale (stale : ¬ a.contains h) : Edit.node h a = (.error (.staleHandle h), a) := by
  unfold Edit.node
  rw [Step.get_bind, node?_of_stale stale]
  rfl

/-- The branch that a search finds starts with the command. -/
theorem branchOf_cases (a : Arena) (head h : Handle) :
    (∃ e, branchOf head h a = (.error e, a)) ∨ ∃ owner branch node,
      branchOf head h a = (.ok (owner, branch), a) ∧ a.node? owner = some node ∧
        node.branches[branch]? = some (some h) := by
  by_cases live : a.contains h
  · obtain ⟨own, found⟩ := exists_node? live
    unfold branchOf
    rw [Step.bind_ok (node_eq found), Step.get_bind]
    cases a.parent head h with
    | none => exact .inl ⟨_, rfl⟩
    | some owner =>
        dsimp only
        by_cases liveOwner : a.contains owner
        · obtain ⟨node, held⟩ := exists_node? liveOwner
          rw [Step.bind_ok (node_eq held)]
          cases position : node.branches.findIdx? (· == some h) with
          | none => exact .inl ⟨_, rfl⟩
          | some branch =>
              obtain ⟨inside, same, -⟩ := List.findIdx?_eq_some_iff_getElem.mp position
              refine .inr ⟨owner, branch, node, rfl, held, ?_⟩
              rw [List.getElem?_eq_getElem inside, beq_iff_eq.mp same]
        · rw [Step.bind_error (node_stale liveOwner)]
          exact .inl ⟨_, rfl⟩
  · unfold branchOf
    rw [Step.bind_error (node_stale live)]
    exact .inl ⟨_, rfl⟩

/-- The last two steps of taking a command off its chain. -/
theorem unlinked_becomes {p : Point} (sound : a.linkage.Sound) (leads : a.target? p = some h)
    {step : Edit Unit} (relinks : ∃ b, step a = (.ok (), b) ∧
      a.Becomes b (a.linkage.relink p (a.next? h))) :
    ∃ b, (step >>= fun _ => forceNext h none >>= fun _ => setPrevious h none) a = (.ok (), b) ∧
      a.Becomes b (a.linkage.unlink p h) := by
  have live : a.contains h := (sound.live leads).2
  obtain ⟨b, ran, first⟩ := relinks
  obtain ⟨c, ranThen, second⟩ := forceNext_becomes ((first.contains h).trans live) none
  obtain ⟨d, ranLast, third⟩ := setPrevious_becomes
    ((second.contains h).trans ((first.contains h).trans live)) none
  rw [first.linkage] at second
  rw [second.linkage] at third
  refine ⟨d, ?_, ?_⟩
  · rw [Step.bind_ok ran, Step.bind_ok ranThen, ranLast]
  · rw [← sound.unlink_eq leads]
    exact (first.trans second).trans third

/-- A command is taken off its chain, or nothing changes. -/
theorem unlink_cases (wf : a.WellFormed) (head h : Handle) :
    (∃ e, unlink head h a = (.error e, a)) ∨ ∃ p b, a.target? p = some h ∧
      unlink head h a = (.ok (), b) ∧ a.Becomes b (a.linkage.unlink p h) := by
  by_cases live : a.contains h
  · obtain ⟨node, found⟩ := exists_node? live
    have next : a.next? h = node.next := by rw [next?, found]; rfl
    have previous : a.previous? h = node.previous := by rw [previous?, found]; rfl
    have liveNext (other : Handle) (same : node.next = some other) : a.contains other :=
      wf.live (.after h) other (next.trans same)
    unfold unlink
    rw [Step.bind_ok (node_eq found)]
    cases before : node.previous with
    | some last =>
        have leads : a.target? (.after last) = some h := (wf.back last h).mpr (previous.trans before)
        have relinks := setNext_becomes (contains_anchor leads) node.next liveNext
        rw [← next] at relinks
        obtain ⟨b, ran, becomes⟩ := unlinked_becomes wf.sound leads relinks
        rw [next] at ran
        exact .inr ⟨_, b, leads, ran, becomes⟩
    | none =>
        dsimp only
        rcases branchOf_cases a head h with ⟨e, failed⟩ | ⟨owner, branch, held, done, foundOwner, first⟩
        · rw [Step.bind_error failed]
          exact .inl ⟨e, rfl⟩
        · have leads : a.target? (.inside owner branch) = some h := by
            rw [target?, child?, foundOwner, Option.bind_some, first]
            rfl
          have branches : held.branches ≠ [] := by
            intro none
            rw [none] at first
            cases first
          have relinks := setBranch_becomes foundOwner (.inl branches) branch node.next liveNext
          rw [← next] at relinks
          obtain ⟨b, ran, becomes⟩ := unlinked_becomes wf.sound leads relinks
          rw [next] at ran
          rw [Step.bind_ok done]
          exact .inr ⟨_, b, leads, ran, becomes⟩
  · unfold unlink
    rw [Step.bind_error (node_stale live)]
    exact .inl ⟨_, rfl⟩

end Edit

end MissionScript
