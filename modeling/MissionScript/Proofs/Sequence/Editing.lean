import MissionScript.Proofs.Sequence.Cleared
import MissionScript.Proofs.Sequence.Insertion

/-!
# Editing sessions

Commands are added, linked, removed, cleared and deleted, in any order. As long as every command that is
linked or deleted is a detached root, no command is put into its own tree, and sequences are cleared from
their roots on, the arena is well formed throughout.
-/

namespace MissionScript

/-- The root of the tree that a command is in. -/
def Arena.IsRootOf (a : Arena) (root h : Handle) : Prop := a.IsRoot root ∧ a.linkage.Reaches root h

/-- A step of an editing session. -/
inductive Revision where
  | insert (command : Command)
  | append (head h : Handle)
  | appendToBranch (owner : Handle) (branch : Nat) (h : Handle)
  | insertAfter (previous h : Handle)
  | remove (head h : Handle)
  | clear (head : Handle) (keepFirst forget : Bool)
  | delete (h : Handle)

namespace Revision

/-- The arena after a step, whether or not that succeeds. -/
def apply : Revision → Arena → Arena
  | insert command, a => (a.insert command).2
  | append head h, a => (Edit.append head h a).2
  | appendToBranch owner branch h, a => (Edit.appendToBranch owner branch h a).2
  | insertAfter previous h, a => (Edit.insertAfter previous h a).2
  | remove head h, a => (Edit.remove head h a).2
  | clear head keepFirst forget, a => a.clear head keepFirst forget
  | delete h, a => (a.delete h).2

/-- What a step asks of the commands it is given. -/
def Allowed (a : Arena) : Revision → Prop
  | insert _ => True
  | append head h => a.Detached h ∧ ¬ a.IsRootOf h head
  | appendToBranch owner _ h => a.Detached h ∧ ¬ a.IsRootOf h owner ∧
      ∀ command, a.command? owner = some command → command.kind.ownsBranches
  | insertAfter previous h => a.Detached h ∧ ¬ a.IsRootOf h previous
  | remove .. => True
  | clear head .. => a.IsRoot head
  | delete h => a.Detached h

end Revision

namespace Arena

/-- The arenas to which the steps of an editing session lead. -/
inductive Revised (a : Arena) : Arena → Prop
  | start : Revised a a
  | step {b : Arena} (earlier : Revised a b) (revision : Revision) (allowed : revision.Allowed b) :
      Revised a (revision.apply b)

variable {a b : Arena} {h other : Handle} {node : Node}

theorem Detached.not_reaches (detached : a.Detached h) (apart : ¬ a.IsRootOf h other) :
    ¬ a.linkage.Reaches h other :=
  fun reaches => apart ⟨detached.toIsRoot, reaches⟩

/-- What one step keeps. -/
theorem WellFormed.apply (wf : a.WellFormed) (revision : Revision) (allowed : revision.Allowed a) :
    (revision.apply a).WellFormed := by
  cases revision with
  | insert command => exact wf.insert command
  | append head h => exact wf.append allowed.1 (allowed.1.not_reaches allowed.2)
  | appendToBranch owner branch h =>
      obtain ⟨detached, apart, owns⟩ := allowed
      exact wf.appendToBranch detached owns (detached.not_reaches apart)
  | insertAfter previous h => exact wf.insertAfter allowed.1 (allowed.1.not_reaches allowed.2)
  | remove head h => exact (Edit.Trims.remove head h a wf).wellFormed
  | clear head keepFirst forget => exact (wf.cleared_clear allowed keepFirst forget).wellFormed
  | delete h => exact (wf.trimmed_delete allowed).wellFormed

/-- An arena stays well formed in every editing session. -/
theorem wellFormed_of_revised (wf : a.WellFormed) (revised : a.Revised b) : b.WellFormed := by
  induction revised with
  | start => exact wf
  | step _ revision allowed ih => exact ih.apply revision allowed

/-! ## Checking a step -/

/-- A command without links reaches nothing. -/
theorem not_isRootOf (different : h ≠ other) (found : a.node? h = some node)
    (single : node.heads ++ node.next.toList = []) : ¬ a.IsRootOf h other := by
  rintro ⟨-, reaches⟩
  rcases Relation.ReflTransGen.cases_head reaches with same | ⟨next, owns, -⟩
  · exact different same
  · have member := (mem_links_of_node? found).mpr owns
    rw [single] at member
    cases member

/-- A conditional block is put into a sequence with a command in it, taken out again and deleted; then
the rest of the sequence is cleared. -/
theorem wellFormed_of_revised_conditional :
    let revisions : List Revision :=
      [.insert (.ofKind .noOp), .insert (.ofKind .ifThen), .insert (.ofKind .beginScript),
        .append ⟨0, 0⟩ ⟨1, 0⟩, .appendToBranch ⟨1, 0⟩ 0 ⟨2, 0⟩, .remove ⟨0, 0⟩ ⟨1, 0⟩,
        .delete ⟨1, 0⟩, .clear ⟨0, 0⟩ false true]
    (revisions.foldl (fun a revision => Revision.apply revision a) empty).WellFormed := by
  intro revisions
  have inserted : empty.Revised _ :=
    ((Revised.start.step (.insert (.ofKind .noOp)) trivial).step
      (.insert (.ofKind .ifThen)) trivial).step (.insert (.ofKind .beginScript)) trivial
  have appended := inserted.step (.append ⟨0, 0⟩ ⟨1, 0⟩)
    ⟨by decide +kernel, not_isRootOf (by decide) rfl rfl⟩
  have filled := appended.step (.appendToBranch ⟨1, 0⟩ 0 ⟨2, 0⟩)
    ⟨by decide +kernel, not_isRootOf (by decide) rfl rfl, fun command found => by cases found; rfl⟩
  have removed := filled.step (.remove ⟨0, 0⟩ ⟨1, 0⟩) trivial
  have deleted := removed.step (.delete ⟨1, 0⟩) (by change Detached _ _; decide +kernel)
  have cleared := deleted.step (.clear ⟨0, 0⟩ false true) (by change IsRoot _ _; decide +kernel)
  exact wellFormed_of_revised wellFormed_empty cleared

end Arena

end MissionScript
