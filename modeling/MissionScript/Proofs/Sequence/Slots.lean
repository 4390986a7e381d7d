import Mathlib.Data.List.Nodup
import Mathlib.Data.List.Perm.Basic
import MissionScript.Proofs.Sequence.Arena

/-!
# Slots

A slot holds one command after another, each under its own generation. Operations on an arena are told
apart by what they do to the slots: links can change without them, a deletion empties some, and an added
command fills one.
-/

namespace MissionScript

namespace Arena

/-- What a slot holds: its generation and the command in it. -/
def held? (a : Arena) (index : Nat) : Option (UInt32 × Option Command) :=
  a.slots[index]?.map fun slot => (slot.generation, slot.node.map (·.command))

def occupied (a : Arena) (index : Nat) : Bool := (a.held? index).any (·.2.isSome)

/-- The handle under which a slot is known at present. -/
def handleAt? (a : Arena) (index : Nat) : Option Handle :=
  match a.held? index with
  | some (generation, some _) => some ⟨index, generation⟩
  | _ => none

/-- All handles that resolve to a command. -/
def handles (a : Arena) : List Handle := (List.range a.slots.size).filterMap a.handleAt?

variable {a b c : Arena} {h : Handle} {command : Command} {node : Node} {index : Nat}

/-- A handle resolves to the command that its slot holds under its generation. -/
theorem command?_eq_some :
    a.command? h = some command ↔ a.held? h.index = some (h.generation, some command) := by
  unfold command? node? held?
  cases a.slots[h.index]? with
  | none => simp
  | some slot =>
      by_cases current : slot.generation = h.generation
      · simp [current]
      · simp [current]

theorem held?_of_node? (found : a.node? h = some node) :
    a.held? h.index = some (h.generation, some node.command) :=
  command?_eq_some.mp (by rw [command?, found]; rfl)

theorem held?_of_command? (found : a.command? h = some command) :
    a.held? h.index = some (h.generation, some command) :=
  command?_eq_some.mp found

theorem contains_iff : a.contains h ↔ ∃ command, a.command? h = some command := by
  rw [contains, Option.isSome_iff_exists]
  unfold command?
  cases a.node? h with
  | none => simp
  | some node => simp

theorem handleAt?_eq_some : a.handleAt? index = some h ↔ h.index = index ∧ a.contains h := by
  rw [contains_iff]
  simp only [command?_eq_some]
  unfold handleAt?
  split
  · rename_i generation command held
    constructor
    · intro same
      cases same
      exact ⟨rfl, command, held⟩
    · rintro ⟨rfl, other, current⟩
      rw [held] at current
      obtain ⟨generation, -⟩ := Prod.mk.inj (Option.some.inj current)
      rw [generation]
  · rename_i vacant
    constructor
    · intro absent
      cases absent
    · rintro ⟨rfl, command, held⟩
      exact (vacant _ _ held).elim

theorem mem_handles : h ∈ a.handles ↔ a.contains h := by
  unfold handles
  rw [List.mem_filterMap]
  constructor
  · rintro ⟨index, -, at_⟩
    exact (handleAt?_eq_some.mp at_).2
  · intro live
    obtain ⟨node, found⟩ := Option.isSome_iff_exists.mp live
    obtain ⟨inside, -⟩ := slot_of_node? found
    exact ⟨h.index, List.mem_range.mpr inside, handleAt?_eq_some.mpr ⟨rfl, live⟩⟩

theorem nodup_handles : a.handles.Nodup := by
  refine List.Nodup.filterMap (fun first second h foundFirst foundSecond => ?_) List.nodup_range
  exact (handleAt?_eq_some.mp foundFirst).1.symm.trans (handleAt?_eq_some.mp foundSecond).1

/-- There are as many commands as handles that resolve. -/
theorem length_handles : a.handles.length = a.live := by
  have slots : (List.range a.slots.size).map (a.slots[·]?) = a.slots.toList.map some := by
    refine List.ext_getElem? fun index => ?_
    rw [List.getElem?_map, List.getElem?_map]
    by_cases inside : index < a.slots.size
    · simp [inside]
    · simp [Nat.le_of_not_lt inside]
  have each (index : Nat) :
      (a.handleAt? index).isSome = (a.slots[index]?).any (·.node.isSome) := by
    unfold handleAt? held?
    cases a.slots[index]? with
    | none => rfl
    | some slot =>
        cases occupant : slot.node with
        | none => simp [occupant]
        | some node => simp [occupant]
  rw [handles, List.length_filterMap_eq_countP, a.live_eq, ← Array.countP_toList]
  have counted := congrArg (List.countP (Option.any (·.node.isSome))) slots
  rw [List.countP_map, List.countP_map] at counted
  exact (List.countP_congr fun index _ => by rw [each]; rfl).trans counted

/-- The counter goes down by the number of the commands that are gone. -/
theorem live_add_length {gone : List Handle} (nodup : gone.Nodup)
    (live : ∀ x ∈ gone, a.contains x)
    (left : ∀ x, b.contains x ↔ a.contains x ∧ x ∉ gone) : b.live + gone.length = a.live := by
  have whole : (b.handles ++ gone).Perm a.handles := by
    refine (List.perm_ext_iff_of_nodup (List.nodup_append.mpr ⟨nodup_handles, nodup, ?_⟩)
      nodup_handles).mpr fun x => ?_
    · rintro x inside _ out rfl
      exact ((left x).mp (mem_handles.mp inside)).2 out
    · rw [List.mem_append, mem_handles, mem_handles, left]
      by_cases out : x ∈ gone
      · simp [out, live x out]
      · simp [out]
  rw [← length_handles, ← length_handles, ← List.length_append]
  exact whole.length_eq

theorem held?_of_modify? {f : Node → Node} (same : ∀ node, (f node).command = node.command)
    (changed : a.modify? h f = some b) : b.held? = a.held? := by
  unfold modify? at changed
  split at changed
  · cases changed
  · rename_i node found
    cases changed
    obtain ⟨inside, slot⟩ := slot_of_node? found
    funext index
    unfold held? write
    rw [Array.getElem?_set]
    split
    · rename_i equal
      subst equal
      simp [Array.getElem?_eq_getElem inside, slot, same]
    · rfl

/-- Some slots that `a` holds commands in are empty in `b`, each under its next generation. -/
def Vacates (a b : Arena) : Prop :=
  ∀ index, b.held? index = a.held? index ∨
    ∃ generation command, a.held? index = some (generation, some command) ∧
      b.held? index = some (generation + 1, none)

theorem Vacates.refl (a : Arena) : a.Vacates a := fun _ => .inl rfl

theorem Vacates.trans (first : a.Vacates b) (second : b.Vacates c) : a.Vacates c := by
  intro index
  rcases first index with same | ⟨generation, command, held, freed⟩
  · rw [← same]
    exact second index
  · rcases second index with same | ⟨later, other, occupied, -⟩
    · exact .inr ⟨generation, command, held, same.trans freed⟩
    · rw [freed] at occupied
      cases occupied

theorem held?_of_release? (released : a.release? h = some (node, b)) :
    a.held? h.index = some (h.generation, some node.command) ∧
      b.held? h.index = some (h.generation + 1, none) ∧
      ∀ index, index ≠ h.index → b.held? index = a.held? index := by
  unfold release? at released
  split at released
  · cases released
  · rename_i found
    cases released
    obtain ⟨inside, slot⟩ := slot_of_node? found
    refine ⟨held?_of_node? found, ?_, fun index different => ?_⟩
    · simp [held?, vacate, inside, slot]
    · simp [held?, vacate, Ne.symm different]

theorem vacates_of_release? (released : a.release? h = some (node, b)) : a.Vacates b := by
  obtain ⟨held, freed, others⟩ := held?_of_release? released
  intro index
  by_cases same : index = h.index
  · subst same
    exact .inr ⟨_, _, held, freed⟩
  · exact .inl (others index same)

theorem vacates_sweep (a : Arena) (pending : List Handle) : a.Vacates (a.sweep pending).2 := by
  fun_induction sweep a pending with
  | case1 a => exact .refl a
  | case2 a h pending stale => exact .refl a
  | case3 a h pending node b released ih => exact (vacates_of_release? released).trans ih

theorem vacates_delete (a : Arena) (h : Handle) : a.Vacates (a.delete h).2 := by
  unfold delete
  split
  · exact .refl a
  · rename_i node b released
    exact (vacates_of_release? released).trans (vacates_sweep b node.heads)

/-- `b` holds a command more than `a` does, in a slot that is new or empty. -/
structure Filled (a b : Arena) (h : Handle) (command : Command) : Prop where
  vacant : a.held? h.index = some (h.generation, none) ∨ a.held? h.index = none ∧ h.generation = 0
  held : b.held? h.index = some (h.generation, some command)
  others : ∀ index, index ≠ h.index → b.held? index = a.held? index

theorem Filled.not_held {generation : UInt32} {other : Command} (filled : Filled a b h command) :
    a.held? h.index ≠ some (generation, some other) := by
  rcases filled.vacant with vacant | ⟨outside, -⟩
  · rw [vacant]
    simp
  · rw [outside]
    simp

theorem filled_push (a : Arena) (command : Command) :
    Filled a (a.push (.ofCommand command)) ⟨a.slots.size, 0⟩ command where
  vacant := .inr ⟨by simp [held?], rfl⟩
  held := by simp [held?, push, Node.ofCommand]
  others index different := by simp [held?, push, Array.getElem?_push, different]

theorem filled_insert (a : Arena) (command : Command) :
    Filled a (a.insert command).2 (a.insert command).1 command := by
  unfold insert
  split
  · exact filled_push a command
  · rename_i index others isFree
    split
    · rename_i slot held
      have vacant := node_of_free isFree held
      obtain ⟨inside, rfl⟩ := Array.getElem?_eq_some_iff.mp held
      constructor
      · exact .inl (by simp [held?, held, vacant])
      · simp [held?, fill, inside, Node.ofCommand]
      · intro other different
        simp [held?, fill, Ne.symm different]
    · exact filled_push a command

end Arena

end MissionScript
