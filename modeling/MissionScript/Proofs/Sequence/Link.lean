import MissionScript.Proofs.Sequence.Arena
import MissionScript.Proofs.Step

/-!
# Linking a command

A command is linked at a point: after the last command of a chain, or first in an empty branch. This
module says what linking changes and finds the point at the end of a chain.
-/

namespace MissionScript

/-- Where a command can be linked. -/
inductive Point where
  /-- After the last command of a chain. -/
  | after (last : Handle)
  /-- First in an empty branch. -/
  | inside (owner : Handle) (branch : Nat)
deriving DecidableEq

namespace Point

/-- The command in front of one that is linked here. -/
def previous? : Point → Option Handle
  | after last => some last
  | inside .. => none

/-- The command that the link starts from. -/
def anchor : Point → Handle
  | after last => last
  | inside owner _ => owner

/-- Lay the link to `h`. -/
def lay (h : Handle) : Point → Node → Node
  | after _, node => { node with next := some h }
  | inside _ branch, node => node.setBranch branch (some h)

@[simp] theorem command_lay (p : Point) (h : Handle) (node : Node) :
    (p.lay h node).command = node.command := by
  cases p <;> rfl

@[simp] theorem previous_lay (p : Point) (h : Handle) (node : Node) :
    (p.lay h node).previous = node.previous := by
  cases p <;> rfl

end Point

/-- `b` is `a` with `h` linked at a point. -/
structure Linked (a b : Arena) (p : Point) (h : Handle) : Prop where
  node : ∀ other, b.node? other =
    if other = h then (a.node? h).map fun node => { node with previous := p.previous? }
    else if other = p.anchor then (a.node? other).map (p.lay h)
    else a.node? other
  size : b.slots.size = a.slots.size
  fresh : a.Fresh → b.Fresh

namespace Linked

variable {a b c : Arena} {p : Point} {h : Handle}

/-- Linking is two changes of nodes. -/
theorem of_modify? (different : p.anchor ≠ h) (first : a.modify? p.anchor (p.lay h) = some b)
    (second : b.modify? h (fun node => { node with previous := p.previous? }) = some c) :
    Linked a c p h where
  node other := by
    rw [Arena.node?_of_modify? second, Arena.node?_of_modify? first h,
      Arena.node?_of_modify? first other, if_neg (Ne.symm different)]
    by_cases anchor : other = p.anchor
    · subst anchor
      simp [different]
    · simp [anchor]
  size := by rw [Arena.size_of_modify? second, Arena.size_of_modify? first]
  fresh isFresh := (isFresh.modify? first).modify? second

end Linked

namespace Edit

variable {a b c : Arena} {owner h last : Handle} {node other : Node}
  {f : Node → Node}

theorem modifyNode_eq (changed : a.modify? h f = some b) : modifyNode h f a = (.ok (), b) := by
  unfold modifyNode
  rw [Step.get_bind, changed]
  rfl

/-- Both changes of a link succeed if both commands exist. -/
theorem exists_modify?_twice (first second : Node → Node) (different : last ≠ h)
    (foundLast : a.node? last = some node) (found : a.node? h = some other) :
    ∃ b c, a.modify? last first = some b ∧ b.modify? h second = some c := by
  obtain ⟨b, firstDone⟩ := Arena.exists_modify? foundLast first
  have kept : b.node? h = some other := by
    rw [Arena.node?_of_modify? firstDone, if_neg (Ne.symm different), found]
  obtain ⟨c, secondDone⟩ := Arena.exists_modify? kept second
  exact ⟨b, c, firstDone, secondDone⟩

theorem setNext_linked (different : last ≠ h) (foundLast : a.node? last = some node)
    (found : a.node? h = some other) :
    ∃ b, setNext last (some h) a = (.ok (), b) ∧ Linked a b (.after last) h := by
  obtain ⟨b, c, first, second⟩ := exists_modify?_twice ({ · with next := some h })
    ({ · with previous := some last }) different foundLast found
  refine ⟨c, ?_, Linked.of_modify? different first second⟩
  unfold setNext forceNext
  rw [Step.bind_ok (modifyNode_eq first)]
  exact modifyNode_eq second

theorem setBranch_linked (branch : Nat) (different : owner ≠ h) (foundOwner : a.node? owner = some node)
    (found : a.node? h = some other) :
    ∃ b, setBranch owner branch (some h) a = (.ok (), b) ∧
      Linked a b (.inside owner branch) h := by
  obtain ⟨b, c, first, second⟩ := exists_modify?_twice (·.setBranch branch (some h))
    ({ · with previous := none }) different foundOwner found
  refine ⟨c, ?_, Linked.of_modify? different first second⟩
  unfold setBranch
  rw [Step.bind_ok (modifyNode_eq first)]
  exact modifyNode_eq second

end Edit

namespace Arena

variable {a b : Arena} {h last : Handle}

/-- The chain of `h` ends with `last`. Slots ascend along it. -/
inductive Path (a : Arena) : Handle → Handle → Prop where
  | last {h : Handle} : a.next? h = none → Path a h h
  | next {h following last : Handle} : a.next? h = some following → h.index < following.index →
      Path a following last → Path a h last

namespace Path

theorem next?_last (path : Path a h last) : a.next? last = none := by
  induction path with
  | last ends => exact ends
  | next _ _ _ ih => exact ih

theorem index_le (path : Path a h last) : h.index ≤ last.index := by
  induction path with
  | last => exact Nat.le_refl _
  | next _ ascends _ ih => exact Nat.le_trans (Nat.le_of_lt ascends) ih

theorem getLastD_follow (path : Path a h last) {limit : Nat} (enough : last.index < h.index + limit)
    (default : Handle) : (follow a.next? limit (some h)).getLastD default = last := by
  induction path generalizing limit default with
  | @last h ends =>
      cases limit with
      | zero => exact absurd enough (Nat.lt_irrefl _)
      | succ limit =>
          simp only [follow, ends]
          cases limit <;> simp [follow]
  | @next h following last link ascends path ih =>
      have := path.index_le
      cases limit with
      | zero => omega
      | succ limit =>
          simp only [follow, link, List.getLastD_cons]
          exact ih (by omega) h

/-- Walking along the chain ends at its last command. -/
theorem last_eq (path : Path a h last) (inside : last.index < a.slots.size) : a.last h = last := by
  have bound : a.slots.size + 1 ≤ a.linkLimit := Nat.le_mul_of_pos_left _ (Nat.succ_pos _)
  exact path.getLastD_follow (by omega) h

/-- The chain as far as `last` does not hang on what follows it. -/
theorem extend (path : Path a h last) {final : Handle}
    (kept : ∀ other, other.index < last.index → b.next? other = a.next? other)
    (onward : Path b last final) : Path b h final := by
  induction path with
  | last => exact onward
  | @next h following last link ascends path ih =>
      have := path.index_le
      exact .next ((kept h (by omega)).trans link) ascends (ih kept onward)

end Path

end Arena

end MissionScript
