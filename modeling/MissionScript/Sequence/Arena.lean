import MissionScript.Command.Basic

/-!
# The command arena

An arena owns the commands of a sequence. Commands are linked by handles, never by each other: a
handle names a slot and which of its occupants is meant, so after the command is deleted the handle
resolves to nothing, even when the slot is used again. Empty slots are filled last in, first out.
-/

namespace MissionScript

/-- A command with its links. The next command and the first commands of the branches belong to it;
the previous one is only a way back. -/
structure Node where
  command : Command
  previous : Option Handle := none
  next : Option Handle := none
  /-- The first command of each branch. -/
  branches : List (Option Handle)

namespace Node

/-- A command without links. A kind that owns branches starts with an empty one. -/
def ofCommand (command : Command) : Node where
  command
  branches := if command.kind.ownsBranches then [none] else []

/-- The first commands of the branches that are not empty. -/
def heads (node : Node) : List Handle := node.branches.reduceOption

/-- Change the first command of a branch, with empty branches before it as needed. -/
def setBranch (node : Node) (branch : Nat) (head : Option Handle) : Node :=
  let missing := List.replicate (branch + 1 - node.branches.length) none
  { node with branches := (node.branches ++ missing).set branch head }

end Node

structure Slot where
  /-- How many occupants have left, modulo `2 ^ 32`. -/
  generation : UInt32 := 0
  node : Option Node

/-- The slots of an arena, the stack of the empty ones and the number of the others. -/
structure Arena where
  slots : Array Slot := #[]
  free : List Nat := []
  /-- How many commands there are. -/
  live : Nat := 0
  /-- The stack holds exactly the empty slots, -/
  mem_free : ∀ index, index ∈ free ↔ ∃ slot, slots[index]? = some slot ∧ slot.node = none := by simp
  /-- each of them once. -/
  nodup_free : free.Nodup := by simp
  /-- The counter is kept as commands come and go. -/
  live_eq : live = slots.countP (·.node.isSome) := by simp

namespace Arena

def empty : Arena := {}

instance : Inhabited Arena := ⟨empty⟩

/-- The command of a handle with its links. -/
def node? (a : Arena) (h : Handle) : Option Node :=
  (a.slots[h.index]?).bind fun slot => if slot.generation = h.generation then slot.node else none

def command? (a : Arena) (h : Handle) : Option Command := (a.node? h).map (·.command)

def contains (a : Arena) (h : Handle) : Bool := (a.node? h).isSome

def next? (a : Arena) (h : Handle) : Option Handle := (a.node? h).bind (·.next)

def previous? (a : Arena) (h : Handle) : Option Handle := (a.node? h).bind (·.previous)

/-- The first command of a branch. -/
def child? (a : Arena) (h : Handle) (branch : Nat) : Option Handle :=
  (a.node? h).bind fun node => (node.branches[branch]?).join

theorem slot_of_node? {a : Arena} {h : Handle} {node : Node} (found : a.node? h = some node) :
    ∃ inside : h.index < a.slots.size,
      a.slots[h.index] = { generation := h.generation, node := some node } := by
  unfold node? at found
  obtain ⟨slot, held, current⟩ := Option.bind_eq_some_iff.mp found
  obtain ⟨inside, rfl⟩ := Array.getElem?_eq_some_iff.mp held
  refine ⟨inside, ?_⟩
  split at current
  · rename_i same
    cases slot : a.slots[h.index]
    simp_all
  · cases current

theorem countP_pos_of_occupied {slots : Array Slot} {index : Nat} (inside : index < slots.size)
    (occupied : slots[index].node ≠ none) : 0 < slots.countP (·.node.isSome) :=
  Array.countP_pos_iff.mpr
    ⟨slots[index], Array.getElem_mem inside, Option.isSome_iff_ne_none.mpr occupied⟩

/-- Put another node in an occupied slot. -/
def write (a : Arena) (index : Nat) (inside : index < a.slots.size)
    (occupied : a.slots[index].node ≠ none) (node : Node) : Arena where
  slots := a.slots.set index { a.slots[index] with node := some node }
  free := a.free
  live := a.live
  mem_free other := by
    rw [a.mem_free, Array.getElem?_set]
    split
    · subst other
      simpa [Array.getElem?_eq_getElem inside] using occupied
    · rfl
  nodup_free := a.nodup_free
  live_eq := by
    have positive := countP_pos_of_occupied inside occupied
    rw [a.live_eq, Array.countP_set, if_pos (Option.isSome_iff_ne_none.mpr occupied)]
    simp only [Option.isSome_some, if_true]
    omega

/-- Change the node of a handle. Nothing if it resolves to none. -/
def modify? (a : Arena) (h : Handle) (f : Node → Node) : Option Arena :=
  match found : a.node? h with
  | none => none
  | some node =>
    some (a.write h.index (slot_of_node? found).1
      (by have := (slot_of_node? found).2; simp [this]) (f node))

/-- Empty an occupied slot. Handles to its occupant resolve to nothing from now on. -/
def vacate (a : Arena) (index : Nat) (inside : index < a.slots.size)
    (occupied : a.slots[index].node ≠ none) : Arena where
  slots := a.slots.set index { generation := a.slots[index].generation + 1, node := none }
  free := index :: a.free
  live := a.live - 1
  mem_free other := by
    rw [List.mem_cons, a.mem_free, Array.getElem?_set]
    split
    · simp_all
    · rename_i different
      simp [Ne.symm different]
  nodup_free := by
    refine List.nodup_cons.mpr ⟨fun member => ?_, a.nodup_free⟩
    obtain ⟨slot, held, vacant⟩ := (a.mem_free index).mp member
    rw [Array.getElem?_eq_getElem inside, Option.some.injEq] at held
    exact occupied (held ▸ vacant)
  live_eq := by
    rw [a.live_eq, Array.countP_set, if_pos (Option.isSome_iff_ne_none.mpr occupied)]
    simp

/-- Take the node of a handle out of the arena. -/
def release? (a : Arena) (h : Handle) : Option (Node × Arena) :=
  match found : a.node? h with
  | none => none
  | some node =>
    some (node, a.vacate h.index (slot_of_node? found).1
      (by have := (slot_of_node? found).2; simp [this]))

theorem live_of_release? {a b : Arena} {h : Handle} {node : Node}
    (released : a.release? h = some (node, b)) : b.live + 1 = a.live := by
  unfold release? at released
  split at released
  · cases released
  · rename_i node' found
    cases released
    obtain ⟨inside, held⟩ := slot_of_node? found
    have positive := countP_pos_of_occupied inside (by simp [held])
    rw [← a.live_eq] at positive
    exact Nat.sub_add_cancel positive

/-- Put a node in a new slot. -/
def push (a : Arena) (node : Node) : Arena where
  slots := a.slots.push { node := some node }
  free := a.free
  live := a.live + 1
  mem_free index := by
    rw [a.mem_free, Array.getElem?_push]
    split
    · rename_i last
      simp [last]
    · rfl
  nodup_free := a.nodup_free
  live_eq := by simp [a.live_eq]

theorem node_of_free {a : Arena} {index : Nat} {others : List Nat} {slot : Slot}
    (isFree : a.free = index :: others) (held : a.slots[index]? = some slot) : slot.node = none := by
  obtain ⟨other, found, vacant⟩ := (a.mem_free index).mp (isFree ▸ List.mem_cons_self)
  cases held.symm.trans found
  exact vacant

/-- Put a node in the empty slot that was emptied last. -/
def fill (a : Arena) (index : Nat) (others : List Nat) (isFree : a.free = index :: others)
    (node : Node) (slot : Slot) (held : a.slots[index]? = some slot) : Arena where
  slots := a.slots.set index { slot with node := some node }
    (Array.getElem?_eq_some_iff.mp held).1
  free := others
  live := a.live + 1
  mem_free other := by
    have whole := a.mem_free other
    have distinct := List.nodup_cons.mp (isFree ▸ a.nodup_free)
    rw [isFree, List.mem_cons] at whole
    rw [Array.getElem?_set]
    split
    · subst other
      simpa using distinct.1
    · rename_i different
      simpa [Ne.symm different] using whole
  nodup_free := (List.nodup_cons.mp (isFree ▸ a.nodup_free)).2
  live_eq := by
    have vacant := node_of_free isFree held
    obtain ⟨inside, rfl⟩ := Array.getElem?_eq_some_iff.mp held
    rw [a.live_eq, Array.countP_set, if_neg (by simp [vacant])]
    simp

/-- Add a command without links. -/
def insert (a : Arena) (command : Command) : Handle × Arena :=
  let node := Node.ofCommand command
  match isFree : a.free with
  | [] => (⟨a.slots.size, 0⟩, a.push node)
  | index :: others =>
    match held : a.slots[index]? with
    | some slot => (⟨index, slot.generation⟩, a.fill index others isFree node slot held)
    | none => (⟨a.slots.size, 0⟩, a.push node)

/-- Start a sequence: a lone command that does nothing. -/
def newSequence (a : Arena) : Handle × Arena := a.insert (.ofKind .noOp)

/-- Delete commands one after the other, each followed by its branches and then by the commands after
it. It stops at the first handle that resolves to nothing. -/
def sweep (a : Arena) : List Handle → Except SequenceError Unit × Arena
  | [] => (.ok (), a)
  | h :: pending =>
    match _released : a.release? h with
    | none => (.error (.staleHandle h), a)
    | some (node, b) => b.sweep (node.heads ++ node.next.toList ++ pending)
termination_by a.live
decreasing_by
  have := live_of_release? _released
  omega

/-- Delete a command with its branches. The commands after it are not touched: whoever deletes a
command unlinks it first. -/
def delete (a : Arena) (h : Handle) : Except SequenceError Command × Arena :=
  match a.release? h with
  | none => (.error (.staleHandle h), a)
  | some (node, b) =>
    let (result, c) := b.sweep node.heads
    (result.map fun () => node.command, c)

end Arena

end MissionScript
