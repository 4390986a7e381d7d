import MissionScript.Sequence.Removal

/-!
# Nodes after a change

What each change of an arena does to the nodes that handles resolve to. Everything later is stated
through `node?`; the slots behind it are opened here only.
-/

namespace MissionScript

namespace Handle

/-- The handle of the first occupant of a slot. -/
def ofIndex (index : Nat) : Handle := ⟨index, 0⟩

@[simp] theorem index_ofIndex (index : Nat) : (ofIndex index).index = index := rfl

@[simp] theorem ofIndex_inj {left right : Nat} : ofIndex left = ofIndex right ↔ left = right := by
  simp [ofIndex]

theorem ext {left right : Handle} (index : left.index = right.index)
    (generation : left.generation = right.generation) : left = right := by
  cases left
  cases right
  cases index
  cases generation
  rfl

end Handle

namespace Arena

variable {a b : Arena} {h other : Handle} {node : Node} {f : Node → Node}

/-! ## Changing a node -/

theorem write_node? (inside : h.index < a.slots.size) (occupied : a.slots[h.index].node ≠ none)
    (current : a.slots[h.index].generation = h.generation) :
    (a.write h.index inside occupied node).node? other =
      if other = h then some node else a.node? other := by
  unfold node? write
  rw [Array.getElem?_set]
  by_cases same : other = h
  · subst same
    simp [current]
  · rw [if_neg same]
    split
    · rename_i indices
      have stale : other.generation ≠ h.generation := by
        intro generations
        apply same
        cases other
        cases h
        simp_all
      simp [← indices, Array.getElem?_eq_getElem inside, current, Ne.symm stale]
    · rfl

theorem modify?_eq_none : a.modify? h f = none ↔ a.node? h = none := by
  unfold modify?
  split <;> simp_all

/-- Changing a node leaves all other handles alone. -/
theorem node?_of_modify? (changed : a.modify? h f = some b) (other : Handle) :
    b.node? other = if other = h then (a.node? h).map f else a.node? other := by
  unfold modify? at changed
  split at changed
  · cases changed
  · rename_i node found
    cases changed
    obtain ⟨inside, held⟩ := slot_of_node? found
    rw [write_node? inside (by simp [held]) (by simp [held]), found]
    rfl

theorem size_of_modify? (changed : a.modify? h f = some b) : b.slots.size = a.slots.size := by
  unfold modify? at changed
  split at changed
  · cases changed
  · cases changed
    simp [write]

theorem exists_modify? (found : a.node? h = some node) (f : Node → Node) :
    ∃ b, a.modify? h f = some b := by
  cases changed : a.modify? h f with
  | none =>
      rw [modify?_eq_none, found] at changed
      cases changed
  | some b => exact ⟨b, rfl⟩

/-- A slot is known under one handle at a time. -/
theorem eq_of_node? {found : Node} (held : a.node? h = some node) (too : a.node? other = some found)
    (same : h.index = other.index) : h = other := by
  obtain ⟨inside, slot⟩ := slot_of_node? held
  obtain ⟨otherInside, otherSlot⟩ := slot_of_node? too
  cases h with
  | mk index generation =>
      cases other with
      | mk otherIndex otherGeneration =>
          cases same
          rw [slot] at otherSlot
          cases otherSlot
          rfl

/-! ## Arenas without deletions -/

/-- Nothing has been deleted: every slot holds its first occupant. -/
structure Fresh (a : Arena) : Prop where
  free : a.free = []
  first : ∀ index, (inside : index < a.slots.size) → a.slots[index].generation = 0

theorem fresh_empty : empty.Fresh where
  free := rfl
  first index inside := by simp [empty] at inside

theorem Fresh.modify? (fresh : a.Fresh) (changed : a.modify? h f = some b) : b.Fresh := by
  unfold Arena.modify? at changed
  split at changed
  · cases changed
  · cases changed
    constructor
    · exact fresh.free
    · intro index inside
      simp only [write, Array.size_set] at inside
      simp only [write, Array.getElem_set]
      split
      · rename_i same
        exact fresh.first _ (same ▸ inside)
      · exact fresh.first index inside

/-- Every slot of such an arena is occupied. -/
theorem Fresh.occupied (fresh : a.Fresh) {index : Nat} (inside : index < a.slots.size) :
    ∃ node, a.slots[index] = { generation := 0, node := some node } := by
  have first := fresh.first index inside
  cases slot : a.slots[index] with
  | mk generation held =>
      rw [slot] at first
      cases held with
      | none =>
          have member : index ∈ a.free :=
            (a.mem_free index).mpr ⟨_, Array.getElem?_eq_getElem inside, by rw [slot]⟩
          rw [fresh.free] at member
          cases member
      | some node =>
          change generation = 0 at first
          exact ⟨node, by rw [first]⟩

/-- The handles that resolve are those of the slots. -/
theorem Fresh.contains_iff (fresh : a.Fresh) :
    a.contains h ↔ ∃ index, index < a.slots.size ∧ h = .ofIndex index := by
  constructor
  · intro live
    obtain ⟨node, found⟩ := Option.isSome_iff_exists.mp live
    obtain ⟨inside, held⟩ := slot_of_node? found
    have first := fresh.first h.index inside
    rw [held] at first
    refine ⟨h.index, inside, ?_⟩
    cases h
    cases first
    rfl
  · rintro ⟨index, inside, rfl⟩
    obtain ⟨node, held⟩ := fresh.occupied inside
    simp [contains, node?, Handle.ofIndex, Array.getElem?_eq_getElem inside, held]

theorem Fresh.live (fresh : a.Fresh) : a.live = a.slots.size := by
  rw [a.live_eq, Array.countP_eq_size]
  intro slot member
  obtain ⟨index, inside, rfl⟩ := Array.mem_iff_getElem.mp member
  obtain ⟨node, held⟩ := fresh.occupied inside
  rw [held]
  rfl

/-- Arenas without deletions are equal if their handles lead to the same nodes. -/
theorem Fresh.ext (fresh : a.Fresh) (too : b.Fresh) (size : a.slots.size = b.slots.size)
    (nodes : ∀ h, a.node? h = b.node? h) : a = b := by
  have slots : a.slots = b.slots := by
    refine Array.ext size fun index inside insideToo => ?_
    obtain ⟨node, held⟩ := fresh.occupied inside
    obtain ⟨node', held'⟩ := too.occupied insideToo
    have same := nodes (.ofIndex index)
    simp only [node?, Handle.ofIndex, Array.getElem?_eq_getElem, inside, insideToo, held, held']
      at same
    cases same
    rw [held, held']
  have free : a.free = b.free := fresh.free.trans too.free.symm
  have live : a.live = b.live := by rw [a.live_eq, b.live_eq, slots]
  cases a
  cases b
  cases slots
  cases free
  cases live
  rfl

/-! ## Adding a command -/

theorem Fresh.insert (fresh : a.Fresh) (command : Command) :
    a.insert command = (.ofIndex a.slots.size, a.push (.ofCommand command)) := by
  have free := fresh.free
  unfold Arena.insert
  split
  · rfl
  · simp_all

theorem Fresh.push (fresh : a.Fresh) : (a.push node).Fresh := by
  constructor
  · exact fresh.free
  · intro index inside
    simp only [Arena.push, Array.getElem_push]
    split
    · rename_i before
      exact fresh.first index before
    · rfl

@[simp] theorem size_push : (a.push node).slots.size = a.slots.size + 1 := by
  simp [push]

/-- A new node is found under the handle after the last one. -/
theorem node?_push (other : Handle) :
    (a.push node).node? other =
      if other = .ofIndex a.slots.size then some node else a.node? other := by
  by_cases last : other.index = a.slots.size
  · have absent : a.node? other = none := by
      simp [Arena.node?, last]
    rw [absent]
    cases other with
    | mk index generation =>
        cases last
        simp [Arena.node?, Arena.push, Handle.ofIndex, eq_comm]
  · have different : other ≠ .ofIndex a.slots.size := by
      rintro rfl
      exact last rfl
    rw [if_neg different]
    simp only [Arena.node?, Arena.push, Array.getElem?_push, if_neg last]

theorem node?_fill {index : Nat} {others : List Nat} {slot : Slot} (isFree : a.free = index :: others)
    (held : a.slots[index]? = some slot) (other : Handle) :
    (a.fill index others isFree node slot held).node? other =
      if other = ⟨index, slot.generation⟩ then some node else a.node? other := by
  obtain ⟨inside, rfl⟩ := Array.getElem?_eq_some_iff.mp held
  unfold node? fill
  rw [Array.getElem?_set]
  by_cases same : other = ⟨index, a.slots[index].generation⟩
  · subst same
    simp
  · rw [if_neg same]
    split
    · rename_i indices
      have stale : a.slots[index].generation ≠ other.generation := by
        intro generations
        exact same (Handle.ext indices.symm generations.symm)
      simp [← indices, held, stale]
    · rfl

/-- An added command is found under its handle, under which nothing was found before. -/
theorem node?_insert (a : Arena) (command : Command) :
    a.node? (a.insert command).1 = none ∧
      ∀ other, (a.insert command).2.node? other =
        if other = (a.insert command).1 then some (.ofCommand command) else a.node? other := by
  have pushed : a.node? ⟨a.slots.size, 0⟩ = none := by simp [node?]
  unfold insert
  split
  · exact ⟨pushed, node?_push⟩
  · rename_i index others isFree
    split
    · rename_i slot held
      exact ⟨by simp [node?, held, node_of_free isFree held], node?_fill isFree held⟩
    · exact ⟨pushed, node?_push⟩

/-! ## Taking a node out -/

theorem release?_eq_none : a.release? h = none ↔ a.node? h = none := by
  unfold release?
  split <;> simp_all

theorem exists_release? (found : a.node? h = some node) : ∃ b, a.release? h = some (node, b) := by
  cases released : a.release? h with
  | none =>
      rw [release?_eq_none, found] at released
      cases released
  | some taken =>
      unfold release? at released
      split at released
      · cases released
      · rename_i held
        cases released
        cases held.symm.trans found
        exact ⟨_, rfl⟩

theorem node?_eq_of_release? (released : a.release? h = some (node, b)) : a.node? h = some node := by
  unfold release? at released
  split at released
  · cases released
  · rename_i found
    cases released
    exact found

/-- A node that is taken out is found no more, and all others are. -/
theorem node?_of_release? (released : a.release? h = some (node, b)) (other : Handle) :
    b.node? other = if other = h then none else a.node? other := by
  unfold release? at released
  split at released
  · cases released
  · rename_i node' found
    cases released
    obtain ⟨inside, slot⟩ := slot_of_node? found
    unfold node? vacate
    rw [Array.getElem?_set]
    by_cases same : other = h
    · subst same
      simp
    · rw [if_neg same]
      split
      · rename_i indices
        have stale : h.generation ≠ other.generation := by
          intro generations
          exact same (Handle.ext indices.symm generations.symm)
        simp [← indices, Array.getElem?_eq_getElem inside, slot, stale]
      · rfl

/-! ## Forgetting results -/

theorem node?_forgetResult : (a.forgetResult h).node? other =
    if other = h then (a.node? other).map fun node =>
      { node with command := node.command.forgetResult }
    else a.node? other := by
  unfold forgetResult
  cases changed : a.modify? h fun node => { node with command := node.command.forgetResult } with
  | none =>
      have absent := modify?_eq_none.mp changed
      split
      · rename_i same
        rw [same, absent, Option.getD_none, absent]
        rfl
      · rfl
  | some b =>
      rw [Option.getD_some, node?_of_modify? changed]
      split
      · rename_i same
        rw [same]
      · rfl

theorem size_forgetResult : (a.forgetResult h).slots.size = a.slots.size := by
  unfold forgetResult
  cases changed : a.modify? h fun node => { node with command := node.command.forgetResult } with
  | none => rfl
  | some b => exact size_of_modify? changed

theorem size_forgetting (handles : List Handle) :
    (handles.foldl forgetResult a).slots.size = a.slots.size := by
  induction handles generalizing a with
  | nil => rfl
  | cons h rest ih => rw [List.foldl_cons, ih, size_forgetResult]

/-- Forgetting the results of some commands. -/
theorem node?_forgetting (handles : List Handle) :
    (handles.foldl forgetResult a).node? other =
      if other ∈ handles then (a.node? other).map fun node =>
        { node with command := node.command.forgetResult }
      else a.node? other := by
  induction handles generalizing a with
  | nil => rfl
  | cons h rest ih =>
      have twice (c : Command) : c.forgetResult.forgetResult = c.forgetResult := by
        cases c with
        | mk kind typeName label generating body span => cases body <;> rfl
      rw [List.foldl_cons, ih, node?_forgetResult]
      by_cases same : other = h
      · subst same
        cases a.node? other <;> simp [twice]
      · simp [same]

end Arena

end MissionScript
