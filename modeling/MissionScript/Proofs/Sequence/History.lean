import Mathlib.Algebra.Ring.Nat
import Mathlib.Data.List.Induction
import MissionScript.Proofs.Sequence.Slots
import MissionScript.Proofs.Step

/-!
# Handles over time

An arena hands out a handle for every command that is added, and the slots of deleted commands are used
again. Whatever is done to the arena, with whatever handles, a handle resolves to its own command until
that is deleted and to nothing afterwards, as long as no slot is freed so often that its generations
start over.
-/

namespace MissionScript

/-- A step that changes links only. -/
inductive Linking where
  | forceNext (h : Handle) (next : Option Handle)
  | setPrevious (h : Handle) (previous : Option Handle)
  | setNext (h : Handle) (next : Option Handle)
  | setBranch (owner : Handle) (branch : Nat) (head : Option Handle)
  | append (head h : Handle)
  | appendToBranch (owner : Handle) (branch : Nat) (h : Handle)
  | insertAfter (previous h : Handle)

def Linking.edit : Linking → Edit Unit
  | forceNext h next => Edit.forceNext h next
  | setPrevious h previous => Edit.setPrevious h previous
  | setNext h next => Edit.setNext h next
  | setBranch owner branch head => Edit.setBranch owner branch head
  | append head h => Edit.append head h
  | appendToBranch owner branch h => Edit.appendToBranch owner branch h
  | insertAfter previous h => Edit.insertAfter previous h

/-- An operation on an arena. Its handles need not resolve to anything. -/
inductive Operation where
  | insert (c : Command)
  | delete (h : Handle)
  | link (l : Linking)

namespace Operation

/-- The arena after an operation, whether or not that succeeds. -/
def apply : Operation → Arena → Arena
  | insert c, a => (a.insert c).2
  | delete h, a => (a.delete h).2
  | link l, a => (l.edit a).2

/-- The handle that an operation hands out, with its command. -/
def issued? : Operation → Arena → Option (Handle × Command)
  | insert c, a => some ((a.insert c).1, c)
  | _, _ => none

end Operation

/-- What has happened to an arena. -/
structure History where
  arena : Arena := .empty
  /-- The handles that have been handed out, each with its command, last first. -/
  issued : List (Handle × Command) := []
  /-- How often each slot has been freed. -/
  freed : Nat → Nat := fun _ => 0

namespace History

def extend (past : History) (operation : Operation) : History :=
  let arena := operation.apply past.arena
  { arena
    issued := (operation.issued? past.arena).toList ++ past.issued
    freed := fun index =>
      past.freed index + if past.arena.occupied index && !arena.occupied index then 1 else 0 }

/-- What has happened after some operations on an empty arena. -/
def ofOperations (operations : List Operation) : History := operations.foldl extend {}

end History

/-! ## Changing links -/

namespace Edit

variable {α β : Type}

/-- The slots hold the same commands after a step. -/
def LinksOnly (step : Edit α) : Prop := ∀ a, (step a).2.held? = a.held?

theorem LinksOnly.bind {step : Edit α} {next : α → Edit β} (first : step.LinksOnly)
    (second : ∀ value, (next value).LinksOnly) : LinksOnly (step >>= next) := by
  intro a
  have kept := first a
  cases ran : step a with
  | mk outcome b =>
      rw [ran] at kept
      cases outcome with
      | error error =>
          rw [Step.bind_error ran]
          exact kept
      | ok value =>
          rw [Step.bind_ok ran]
          exact (second value b).trans kept

theorem LinksOnly.read {f : Arena → Edit β} (each : ∀ a, (f a).LinksOnly) :
    LinksOnly (get >>= f) :=
  fun a => each a a

theorem linksOnly_pure (value : α) : LinksOnly (pure value) := fun _ => rfl

theorem linksOnly_throw (error : SequenceError) : LinksOnly (throw error : Edit α) := fun _ => rfl

theorem linksOnly_node (h : Handle) : (node h).LinksOnly := by
  refine .read fun a => ?_
  split
  · exact linksOnly_pure _
  · exact linksOnly_throw _

theorem linksOnly_modifyNode (h : Handle) {f : Node → Node}
    (same : ∀ node, (f node).command = node.command) : (modifyNode h f).LinksOnly := by
  intro a
  unfold modifyNode
  rw [Step.get_bind]
  cases changed : a.modify? h f with
  | none => rfl
  | some b => exact Arena.held?_of_modify? same changed

theorem linksOnly_setPrevious (h : Handle) (previous : Option Handle) :
    (setPrevious h previous).LinksOnly :=
  linksOnly_modifyNode h fun _ => rfl

theorem linksOnly_forceNext (h : Handle) (next : Option Handle) : (forceNext h next).LinksOnly :=
  linksOnly_modifyNode h fun _ => rfl

theorem linksOnly_setNext (h : Handle) (next : Option Handle) : (setNext h next).LinksOnly := by
  refine (linksOnly_forceNext h next).bind fun _ => ?_
  cases next with
  | none => exact linksOnly_pure _
  | some next => exact linksOnly_setPrevious next _

theorem linksOnly_setBranch (owner : Handle) (branch : Nat) (head : Option Handle) :
    (setBranch owner branch head).LinksOnly := by
  have branches := linksOnly_modifyNode owner (f := (·.setBranch branch head)) fun _ => rfl
  refine branches.bind fun _ => ?_
  cases head with
  | none => exact linksOnly_pure _
  | some head => exact linksOnly_setPrevious head _

theorem linksOnly_append (head h : Handle) : (append head h).LinksOnly :=
  .read fun a => linksOnly_setNext (a.last head) (some h)

theorem linksOnly_appendToBranch (owner : Handle) (branch : Nat) (h : Handle) :
    (appendToBranch owner branch h).LinksOnly := by
  refine .read fun a => ?_
  cases a.child? owner branch with
  | none => exact linksOnly_setBranch owner branch (some h)
  | some head => exact linksOnly_append head h

theorem linksOnly_insertAfter (previous h : Handle) : (insertAfter previous h).LinksOnly :=
  (linksOnly_node previous).bind fun before =>
    (linksOnly_setNext h before.next).bind fun _ => linksOnly_setNext previous (some h)

end Edit

theorem Linking.linksOnly (l : Linking) : l.edit.LinksOnly := by
  cases l with
  | forceNext h next => exact Edit.linksOnly_forceNext h next
  | setPrevious h previous => exact Edit.linksOnly_setPrevious h previous
  | setNext h next => exact Edit.linksOnly_setNext h next
  | setBranch owner branch head => exact Edit.linksOnly_setBranch owner branch head
  | append head h => exact Edit.linksOnly_append head h
  | appendToBranch owner branch h => exact Edit.linksOnly_appendToBranch owner branch h
  | insertAfter previous h => exact Edit.linksOnly_insertAfter previous h

namespace History

variable {past : History} {operation : Operation} {h : Handle} {command : Command} {index : Nat}

@[simp] theorem arena_extend :
    (past.extend operation).arena = operation.apply past.arena := rfl

@[simp] theorem issued_extend : (past.extend operation).issued =
    (operation.issued? past.arena).toList ++ past.issued := rfl

theorem freed_le_extend (past : History) (operation : Operation) (index : Nat) :
    past.freed index ≤ (past.extend operation).freed index :=
  Nat.le_add_right _ _

/-- The handles that have been handed out, as they stand in the slots. -/
structure Sound (past : History) : Prop where
  generation : ∀ {index generation occupant},
    past.arena.held? index = some (generation, occupant) → generation.toNat = past.freed index
  beyond : ∀ {index}, past.arena.held? index = none → past.freed index = 0
  /-- A handle belongs to an earlier occupant of its slot, or the slot holds its command. -/
  issued : ∀ {h command}, (h, command) ∈ past.issued →
    h.generation.toNat < past.freed h.index ∨
      past.arena.held? h.index = some (h.generation, some command)
  known : ∀ {h command}, past.arena.held? h.index = some (h.generation, some command) →
    (h, command) ∈ past.issued
  nodup : (past.issued.map (·.1)).Nodup

/-- A slot that an operation leaves alone is not freed. -/
theorem freed_extend_of_same
    (same : (operation.apply past.arena).held? index = past.arena.held? index) :
    (past.extend operation).freed index = past.freed index := by
  simp [extend, Arena.occupied, same]

theorem freed_extend_of_freed {before after : UInt32}
    (held : past.arena.held? index = some (before, some command))
    (freed : (operation.apply past.arena).held? index = some (after, none)) :
    (past.extend operation).freed index = past.freed index + 1 := by
  simp [extend, Arena.occupied, held, freed]

/-- A slot that is filled is not freed. -/
theorem freed_extend_of_filled (filled : past.arena.Filled (operation.apply past.arena) h command)
    (index : Nat) : (past.extend operation).freed index = past.freed index := by
  by_cases same : index = h.index
  · subst same
    rcases filled.vacant with vacant | ⟨outside, -⟩
    · simp [extend, Arena.occupied, vacant]
    · simp [extend, Arena.occupied, outside]
  · exact freed_extend_of_same (filled.others index same)

namespace Sound

/-- An operation that adds no command frees some slots. -/
theorem vacates (sound : past.Sound) (vacates : past.arena.Vacates (operation.apply past.arena))
    (silent : operation.issued? past.arena = none)
    (few : ∀ index, (past.extend operation).freed index < 2 ^ 32) : (past.extend operation).Sound := by
  have issued : (past.extend operation).issued = past.issued := by rw [issued_extend, silent]; rfl
  refine ⟨?generation, ?beyond, ?issued, ?known, ?nodup⟩
  case generation =>
    intro index generation occupant held
    rw [arena_extend] at held
    rcases vacates index with same | ⟨before, command, occupied, freed⟩
    · rw [freed_extend_of_same same]
      exact sound.generation (same ▸ held)
    · have below := few index
      rw [freed_extend_of_freed occupied freed] at below ⊢
      rw [freed] at held
      cases held
      rw [UInt32.toNat_add, sound.generation occupied]
      exact Nat.mod_eq_of_lt below
  case beyond =>
    intro index outside
    rw [arena_extend] at outside
    rcases vacates index with same | ⟨before, command, occupied, freed⟩
    · rw [freed_extend_of_same same]
      exact sound.beyond (same ▸ outside)
    · rw [freed] at outside
      cases outside
  case issued =>
    intro h command member
    rw [issued] at member
    rw [arena_extend]
    rcases sound.issued member with earlier | held
    · exact .inl (Nat.lt_of_lt_of_le earlier (freed_le_extend past operation _))
    · rcases vacates h.index with same | ⟨before, _, occupied, freed⟩
      · exact .inr (same.trans held)
      · rw [freed_extend_of_freed occupied freed]
        exact .inl (Nat.lt_succ_of_le (Nat.le_of_eq (sound.generation held)))
  case known =>
    intro h command held
    rw [arena_extend] at held
    rw [issued]
    rcases vacates h.index with same | ⟨before, _, occupied, freed⟩
    · exact sound.known (same ▸ held)
    · rw [freed] at held
      cases (Prod.mk.inj (Option.some.inj held)).2
  case nodup =>
    rw [issued]
    exact sound.nodup

section

variable {b : Arena} (sound : past.Sound) (filled : past.arena.Filled b h command)

include sound filled

/-- The generation of a new handle tells how often its slot has been freed. -/
theorem generation_of_filled : h.generation.toNat = past.freed h.index := by
  rcases filled.vacant with vacant | ⟨outside, first⟩
  · exact sound.generation vacant
  · rw [sound.beyond outside, first]
    rfl

/-- A new handle has not been handed out before. -/
theorem notMem_issued : h ∉ past.issued.map (·.1) := by
  intro member
  obtain ⟨⟨h, earlier⟩, inside, rfl⟩ := List.mem_map.mp member
  rcases sound.issued inside with freed | held
  · exact Nat.ne_of_lt freed (sound.generation_of_filled filled)
  · exact filled.not_held held

end

/-- An operation that adds a command fills a slot. -/
theorem fills (sound : past.Sound) (filled : past.arena.Filled (operation.apply past.arena) h command)
    (issues : operation.issued? past.arena = some (h, command)) : (past.extend operation).Sound := by
  have issued : (past.extend operation).issued = (h, command) :: past.issued := by
    rw [issued_extend, issues]
    rfl
  have freed := freed_extend_of_filled filled
  refine ⟨?generation, ?beyond, ?issued, ?known, ?nodup⟩
  case generation =>
    intro index generation occupant held
    rw [arena_extend] at held
    rw [freed]
    by_cases same : index = h.index
    · rw [same] at held ⊢
      rw [filled.held] at held
      cases held
      exact sound.generation_of_filled filled
    · rw [filled.others index same] at held
      exact sound.generation held
  case beyond =>
    intro index outside
    rw [arena_extend] at outside
    rw [freed]
    have different : index ≠ h.index := by
      rintro rfl
      rw [filled.held] at outside
      cases outside
    rw [filled.others index different] at outside
    exact sound.beyond outside
  case issued =>
    intro other command' member
    rw [issued, List.mem_cons] at member
    rw [arena_extend, freed]
    rcases member with new | member
    · cases new
      exact .inr filled.held
    · refine (sound.issued member).imp_right fun held => ?_
      have different : other.index ≠ h.index := by
        intro same
        rw [same] at held
        exact filled.not_held held
      exact (filled.others _ different).trans held
  case known =>
    intro other command' held
    rw [arena_extend] at held
    rw [issued, List.mem_cons]
    by_cases same : other.index = h.index
    · rw [same, filled.held] at held
      obtain ⟨generation, occupant⟩ := Prod.mk.inj (Option.some.inj held)
      obtain rfl := Option.some.inj occupant
      exact .inl (by rw [Handle.ext same generation.symm])
    · rw [filled.others _ same] at held
      exact .inr (sound.known held)
  case nodup =>
    rw [issued, List.map_cons, List.nodup_cons]
    exact ⟨sound.notMem_issued filled, sound.nodup⟩

/-- What one operation keeps. -/
theorem extend (sound : past.Sound)
    (few : ∀ index, (past.extend operation).freed index < 2 ^ 32) :
    (past.extend operation).Sound := by
  cases operation with
  | insert command => exact sound.fills (past.arena.filled_insert command) rfl
  | delete h => exact sound.vacates (past.arena.vacates_delete h) rfl few
  | link l =>
      refine sound.vacates (fun index => .inl ?_) rfl few
      exact congrFun (l.linksOnly past.arena) index

end Sound

namespace Sound

/-- A handle that has been handed out resolves to its own command or to nothing. -/
theorem command? (sound : past.Sound) (member : (h, command) ∈ past.issued) :
    past.arena.command? h = some command ∨ past.arena.command? h = none := by
  cases found : past.arena.command? h with
  | none => exact .inr rfl
  | some other =>
      have held := Arena.held?_of_command? found
      rcases sound.issued member with freed | own
      · exact absurd (sound.generation held) (Nat.ne_of_lt freed)
      · exact .inl (found.symm.trans (Arena.command?_eq_some.mpr own))

/-- The commands are those whose handles still resolve. -/
theorem live_eq (sound : past.Sound) :
    past.arena.live = (past.issued.map (·.1)).countP past.arena.contains := by
  rw [← Arena.length_handles, List.countP_eq_length_filter]
  refine List.Perm.length_eq ?_
  rw [List.perm_ext_iff_of_nodup Arena.nodup_handles (sound.nodup.filter _)]
  intro h
  rw [Arena.mem_handles, List.mem_filter]
  refine ⟨fun live => ⟨?_, live⟩, And.right⟩
  obtain ⟨command, found⟩ := Arena.contains_iff.mp live
  exact List.mem_map.mpr ⟨_, sound.known (Arena.held?_of_command? found), rfl⟩

end Sound

end History

end MissionScript
