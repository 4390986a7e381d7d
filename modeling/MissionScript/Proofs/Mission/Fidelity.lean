import MissionScript.Proofs.Mission.Acceptance
import MissionScript.Proofs.Sequence.Tree

/-!
# What an accepted script becomes

The sequence of an accepted script is well linked, and behind its head it holds one command for each
statement of the mission, in the order of the script.
-/

namespace MissionScript

variable {m : Mission} {program : Program}

namespace Mission.Draws

/-- The layout of the whole sequence, with its head. -/
theorem drawn (draws : m.Draws program) :
    m.arena.Drawn none 0 none (.step (.ofKind .noOp) .done .done program.layout) := by
  have first : (Draft.start .empty).arena = Arena.empty.push (.ofCommand (.ofKind .noOp)) := by
    rw [Draft.start_eq]
  have size : (Draft.start .empty).arena.slots.size = 1 := by
    rw [first]
    rfl
  have grown := draws.grown
  refine ⟨?_, .inr ⟨rfl, rfl⟩, trivial, trivial, ?_⟩
  · have head : (Draft.start .empty).arena.node? (.ofIndex 0) =
        some (.ofCommand (.ofKind .noOp)) := by
      rw [first, Arena.node?_push]
      exact if_pos rfl
    rw [grown.kept (.ofIndex 0) (by rw [size]; exact Nat.one_pos), size]
    cases program.layout with
    | done => exact head
    | step =>
        refine (Arena.relinked?_of_eq rfl _).trans ?_
        change Option.map _ ((Draft.start .empty).arena.node? (.ofIndex 0)) = _
        rw [head]
        rfl
  · have behind := grown.drawn
    rw [size] at behind
    exact behind

theorem full (draws : m.Draws program) :
    m.arena.slots.size = (Layout.step (.ofKind .noOp) .done .done program.layout).size := by
  have size : (Draft.start .empty).arena.slots.size = 1 := by
    rw [Draft.start_eq]
    rfl
  rw [draws.grown.size, size, Layout.size_step, Layout.size_done]

theorem wellLinked (draws : m.Draws program) : m.arena.WellLinked m.head := by
  rw [draws.head]
  exact Arena.Drawn.wellLinked draws.drawn draws.fresh draws.full (by simp)

/-- Behind the head stand the commands of the program. -/
theorem commands (draws : m.Draws program) :
    ∃ handles, m.arena.commandsFrom m.head = m.head :: handles ∧
      handles.map m.arena.command? = program.commands.map some := by
  have listed := Arena.Drawn.commandsFrom_eq draws.drawn draws.full (by simp)
  refine ⟨program.layout.handles 1, ?_, ?_⟩
  · rw [draws.head, listed, Layout.handles_step]
    rfl
  · have found := draws.drawn.2.2.2.2.commands_handles
    rw [Program.commands_layout] at found
    exact found

/-- Every command of a mission is its head or one of the program. -/
theorem command_of_node? (draws : m.Draws program) {h : Handle} {node : Node}
    (found : m.arena.node? h = some node) :
    node.command = .ofKind .noOp ∨ node.command ∈ program.commands := by
  have live : m.arena.contains h := by
    rw [Arena.contains, found]
    rfl
  have member := (Arena.Drawn.contains_iff draws.fresh draws.full h).mp live
  have listed := List.mem_map_of_mem (f := m.arena.command?) member
  rw [draws.drawn.commands_handles, Arena.command?, found] at listed
  simpa [Layout.commands] using listed

end Mission.Draws

/-! ## Commands and their statements -/

/-- A command keeps the text of its statement, and does not know where this stands. -/
theorem Command.of_ofStatement {s : Statement} {c : Command} (built : Command.ofStatement s = .ok c) :
    c.generating = s.instruction ++ [';'] ∧ c.span = none := by
  unfold ofStatement at built
  dsimp only at built
  split at built
  · split at built
    · cases built
      exact ⟨rfl, rfl⟩
    · cases built
  · split at built
    · cases built
      exact ⟨rfl, rfl⟩
    · cases built
  · obtain ⟨body, _, rest⟩ := Outcome.bind_eq_ok_iff.mp built
    cases rest
    exact ⟨rfl, rfl⟩
  · cases built

/-- A command that a statement of a mission makes. -/
structure Command.Renders (c : Command) (s : Statement) : Prop where
  /-- It is what the statement describes -/
  built : Command.ofStatement s = .ok { c with span := none }
  /-- with the text of the statement -/
  generating : c.generating = s.instruction ++ [';']
  /-- and its place. -/
  span : c.span = some s.span

theorem Command.renders_of_command? {s : Statement} {c : Command} (found : s.command? = some c) :
    c.Renders s := by
  unfold Statement.command? at found
  cases built : Command.ofStatement s with
  | error e =>
      rw [built] at found
      cases found
  | ok bare =>
      rw [built] at found
      cases found
      obtain ⟨generating, span⟩ := of_ofStatement built
      refine ⟨?_, generating, rfl⟩
      rw [built, ← span]

/-- The commands under some handles are those of some statements, one for each. -/
theorem Arena.forall₂_renders {a : Arena} {handles : List Handle} {statements : List Statement}
    (builds : ∀ s ∈ statements, ∃ c, Command.ofStatement s = .ok c)
    (found : handles.map a.command? = (statements.filterMap (·.command?)).map some) :
    List.Forall₂ (fun h s => ∃ c, a.command? h = some c ∧ c.Renders s) handles statements := by
  induction statements generalizing handles with
  | nil =>
      rw [List.filterMap_nil, List.map_nil, List.map_eq_nil_iff] at found
      rw [found]
      exact .nil
  | cons s rest ih =>
      obtain ⟨⟨bare, built⟩, others⟩ := List.forall_mem_cons.mp builds
      have described : s.command? = some { bare with span := some s.span } := by
        rw [Statement.command?, built]
      rw [List.filterMap_cons, described, List.map_cons] at found
      obtain ⟨h, handles, rfl, first, behind⟩ := List.map_eq_cons_iff.mp found
      exact .cons ⟨_, first, Command.renders_of_command? described⟩ (ih others behind)

/-- The sequence of an accepted source is well linked, and the commands behind its head are those of the
statements of the mission, one for each, in the order of the source. -/
theorem Mission.ofSource_faithful {keywords : Keywords} {source : Nat} {text : Text}
    (accepted : Mission.ofSource keywords source text = .ok m) :
    m.arena.WellLinked m.head ∧
      ∃ statements handles, parseScript keywords text = .ok statements ∧
        m.arena.commandsFrom m.head = m.head :: handles ∧
        List.Forall₂ (fun h s => ∃ c, m.arena.command? h = some c ∧ c.Renders s) handles
          (missionStatements statements) := by
  unfold ofSource at accepted
  cases parsed : parseScript keywords text with
  | error errors =>
      rw [parsed] at accepted
      cases accepted
  | ok statements =>
      rw [parsed] at accepted
      obtain ⟨sound, _, ⟨program, commands⟩, each⟩ := draws_of_accepted accepted
      have draws := each program commands
      obtain ⟨handles, listed, found⟩ := draws.commands
      refine ⟨draws.wellLinked, statements, handles, rfl, listed, ?_⟩
      rw [commands] at found
      exact Arena.forall₂_renders sound.builds found

theorem Mission.ofSource_faithful_optimize :
    ∃ m, Mission.ofSource .builtin 0
        "Optimize DC1\nBeginScript\nReport x;\nEndScript;\nEndOptimize;\nToggle y;".toList = .ok m ∧
      m.arena.WellLinked m.head ∧
      ∃ statements handles,
        parseScript .builtin
          "Optimize DC1\nBeginScript\nReport x;\nEndScript;\nEndOptimize;\nToggle y;".toList =
            .ok statements ∧
        m.arena.commandsFrom m.head = m.head :: handles ∧
        List.Forall₂ (fun h s => ∃ c, m.arena.command? h = some c ∧ c.Renders s) handles
          (missionStatements statements) := by
  have accepted : (Mission.ofSource .builtin 0
      "Optimize DC1\nBeginScript\nReport x;\nEndScript;\nEndOptimize;\nToggle y;".toList).isOk := by
    decide +kernel
  obtain ⟨m, built⟩ := Outcome.exists_of_isOk accepted
  exact ⟨m, built, Mission.ofSource_faithful built⟩

end MissionScript
