import MissionScript.Proofs.Renaming.Names
import MissionScript.Proofs.Sequence.Rewriting
import MissionScript.Run.Session

/-!
# Renaming in a mission

Renaming goes through the commands of a session one by one. On a mission that draws a program nothing
can fail on the way, and what is left draws the program with every command renamed.
-/

namespace MissionScript

variable (objectType : ObjectType) (old new : Text)

/-! ## Handles -/

/-- Renaming in one command leaves the others alone. -/
theorem Edit.exists_rename {a : Arena} {h : Handle} (live : a.contains h) :
    ∃ changed b, Edit.rename h objectType old new a = (.ok changed, b) ∧
      b.slots.size = a.slots.size ∧ ∀ other, b.node? other = if other = h then
        (a.node? other).map fun node =>
          { node with command := node.command.afterRename objectType old new }
        else a.node? other := by
  obtain ⟨node, found⟩ := Option.isSome_iff_exists.mp live
  have looked : Edit.node h a = (.ok node, a) := by
    unfold Edit.node
    rw [Step.get_bind, found]
    rfl
  unfold Edit.rename
  rw [Step.bind_ok looked]
  cases edit : node.command.rename? objectType old new with
  | none =>
      refine ⟨false, a, rfl, rfl, fun other => ?_⟩
      split
      · rename_i same
        rw [same, found, Option.map_some, Command.afterRename, edit, Option.getD_none]
      · rfl
  | some command =>
      obtain ⟨b, changed⟩ := Arena.exists_modify? found ({ · with command })
      have edited : Edit.modifyNode h ({ · with command }) a = (.ok (), b) := by
        unfold Edit.modifyNode
        rw [Step.get_bind, changed]
        rfl
      dsimp only
      rw [Step.bind_ok edited]
      refine ⟨true, b, rfl, Arena.size_of_modify? changed, fun other => ?_⟩
      rw [Arena.node?_of_modify? changed]
      split
      · rename_i same
        rw [same, found, Option.map_some, Option.map_some, Command.afterRename, edit, Option.getD_some]
      · rfl

/-- Renaming goes through all commands. -/
theorem Session.exists_renameIn {handles : List Handle} {a : Arena}
    (live : ∀ h ∈ handles, a.contains h) (distinct : handles.Nodup) :
    ∃ count b, renameIn objectType old new handles a = (.ok count, b) ∧
      b.slots.size = a.slots.size ∧ ∀ other, b.node? other = if other ∈ handles then
        (a.node? other).map fun node =>
          { node with command := node.command.afterRename objectType old new }
        else a.node? other := by
  induction handles generalizing a with
  | nil => exact ⟨0, a, rfl, rfl, fun other => rfl⟩
  | cons h rest ih =>
      obtain ⟨here, others⟩ := List.forall_mem_cons.mp live
      obtain ⟨apart, distinct⟩ := List.nodup_cons.mp distinct
      obtain ⟨changed, b, edited, size, nodes⟩ :=
        Edit.exists_rename objectType old new here
      have still : ∀ other ∈ rest, b.contains other := by
        intro other member
        rw [Arena.contains, nodes, if_neg fun same : other = h => apart (same ▸ member)]
        exact others other member
      obtain ⟨count, c, renamed, size', nodes'⟩ := ih still distinct
      rw [renameIn, edited]
      dsimp only
      rw [renamed]
      refine ⟨_, c, rfl, size'.trans size, fun other => ?_⟩
      rw [nodes', nodes]
      by_cases same : other = h
      · rw [if_pos same, if_neg fun member => apart (same ▸ member),
          if_pos (same ▸ List.mem_cons_self)]
      · rw [if_neg same]
        simp only [List.mem_cons, same, false_or]

/-! ## Missions -/

namespace Session

variable {objectType} {old new} {s : Session} {program : Program}

/-- The commands of a session whose mission draws a program are all that there are, each once. -/
theorem mem_commands_iff (draws : s.mission.Draws program) {h : Handle} :
    h ∈ s.commands ↔ s.arena.contains h := by
  rw [commands, arena, draws.head, Arena.Drawn.commandsFrom_eq draws.drawn draws.full (by simp)]
  exact (Arena.Drawn.contains_iff draws.fresh draws.full h).symm

theorem nodup_commands (draws : s.mission.Draws program) : s.commands.Nodup := by
  refine List.nodup_iff_count_le_one.mpr fun h => ?_
  rw [commands, arena, draws.wellLinked.once]
  split
  · exact Nat.le_refl _
  · exact Nat.zero_le _

/-- Renaming an object renames it in the store and in every command, or it is refused and changes
nothing. -/
theorem rename_cases (draws : s.mission.Draws program) :
    (rename s objectType old new = (.error (.duplicateObject new), s) ∧
        Store.rename? s.objects old new = none) ∨
      ∃ count objects found arena,
        rename s objectType old new = (.ok count, (s.withObjects objects).withArena arena) ∧
        Store.rename? s.objects old new = some (objects, found) ∧
        arena.slots.size = s.arena.slots.size ∧
        ∀ h, arena.node? h = (s.arena.node? h).map fun node =>
          { node with command := node.command.afterRename objectType old new } := by
  unfold rename
  cases stored : Store.rename? s.objects old new with
  | none => exact .inl ⟨rfl, rfl⟩
  | some pair =>
      obtain ⟨objects, found⟩ := pair
      obtain ⟨count, arena, renamed, size, nodes⟩ := exists_renameIn objectType old new
        (fun h member => (mem_commands_iff draws).mp member) (nodup_commands draws)
      refine .inr ⟨count, objects, found, arena, ?_, rfl, size, fun h => ?_⟩
      · dsimp only
        rw [show (s.withObjects objects).commands = s.commands from rfl,
          show (s.withObjects objects).arena = s.arena from rfl, renamed]
      · rw [nodes]
        split
        · rfl
        · rename_i absent
          have none : s.arena.node? h = none := Option.not_isSome_iff_eq_none.mp fun live =>
            absent ((mem_commands_iff draws).mpr live)
          rw [none]
          rfl

/-- What is left draws the renamed program. -/
theorem draws_rename (draws : s.mission.Draws program) {objects : Store} {arena : Arena}
    (size : arena.slots.size = s.arena.slots.size)
    (nodes : ∀ h, arena.node? h = (s.arena.node? h).map fun node =>
      { node with command := node.command.afterRename objectType old new }) :
    ((s.withObjects objects).withArena arena).mission.Draws
      (program.map (·.afterRename objectType old new) fun c => c.kind_afterRename) :=
  draws.map (fun c => c.kind_afterRename) rfl rfl size nodes

end Session

end MissionScript
