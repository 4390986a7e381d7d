import MissionScript.Proofs.Run.Direct
import MissionScript.Proofs.Sequence.Tree
import MissionScript.Proofs.Step
import MissionScript.Run.Execute

/-!
# Steps of a run and of a direct reading

A session shows a world when it holds the same objects and solvers, and when its arena differs from the
one the mission started with in the results of commands only. Steps of a run keep pace with the steps
of a direct reading.
-/

namespace MissionScript

namespace Command

variable {c : Command} {state other : ResultState}

@[simp] theorem kind_withState : (c.withState state).kind = c.kind := rfl

@[simp] theorem span_withState : (c.withState state).span = c.span := rfl

@[simp] theorem typeName_withState : (c.withState state).typeName = c.typeName := rfl

@[simp] theorem subject_withState : (c.withState state).subject = c.subject := rfl

@[simp] theorem withState_withState : (c.withState state).withState other = c.withState other := by
  cases c with
  | mk kind typeName label generating body span => cases body <;> rfl

theorem forgetResult_withState : (c.withState state).forgetResult = c.withState .unregistered := by
  cases c with
  | mk kind typeName label generating body span => cases body <;> rfl

/-- A command without a result is not changed. -/
theorem withState_of_none (noResult : c.body.resultState? = none) : c.withState state = c := by
  cases c with
  | mk kind typeName label generating body span => cases body <;> first | rfl | cases noResult

/-- A report changes where the command stands with its solver and nothing else. -/
theorem withState_of_report {store : Store} {solver after : DryRun} {reported : Command}
    (reports : (c.withState state).report store solver = .ok (reported, after)) :
    reported = c.withState (reported.body.resultState?.getD .unregistered) := by
  unfold Command.report at reports
  split at reports
  · rename_i body solver' done
    cases reports
    cases c with
    | mk kind typeName label generating old span =>
        cases old with
        | objective o =>
            obtain ⟨_, made, same⟩ := Outcome.map_eq_ok_iff.mp done
            cases same
            obtain ⟨⟨_, _⟩, _, same⟩ := Outcome.bind_eq_ok_iff.mp made
            cases same
            rfl
        | constraint o =>
            obtain ⟨_, made, same⟩ := Outcome.map_eq_ok_iff.mp done
            cases same
            obtain ⟨⟨_, _⟩, _, same⟩ := Outcome.bind_eq_ok_iff.mp made
            cases same
            rfl
        | _ =>
            cases done
            rfl
  · cases reports

end Command

namespace Run

variable {α : Type} {c : Command} {state : ResultState}

/-! ## Results do not matter except for reports -/

@[simp] theorem fail_withState (error : SequenceError) :
    (fail (c.withState state) error : Run α) = fail c error := rfl

@[simp] theorem require_withState (x : Except ValueError α) :
    require (c.withState state) x = require c x := by
  cases x <;> rfl

@[simp] theorem assign_withState : assign (c.withState state) = assign c := by
  cases c with
  | mk kind typeName label generating body span => cases body <;> rfl

@[simp] theorem test_withState : test (c.withState state) = test c := by
  cases c with
  | mk kind typeName label generating body span => cases body <;> rfl

@[simp] theorem skipCall_withState : skipCall (c.withState state) = skipCall c := rfl

@[simp] theorem passes_withState {σ : Type} (again : σ → Run Bool) (pass : σ → Run (Option σ))
    (remaining : Nat) :
    passes (c.withState state) again pass remaining = passes c again pass remaining := by
  induction remaining with
  | zero => rfl
  | succ remaining ih =>
      funext start
      simp only [passes, ih]

@[simp] theorem loop_withState {σ : Type} (start : σ) (again : σ → Run Bool)
    (pass : σ → Run (Option σ)) :
    loop (c.withState state) start again pass = loop c start again pass := by
  simp only [loop, passes_withState]

@[simp] theorem whileLoop_withState (body : Run Unit) :
    whileLoop (c.withState state) body = whileLoop c body := by
  simp only [whileLoop, loop_withState, test_withState]

@[simp] theorem forLoop_withState (body : Run Unit) :
    forLoop (c.withState state) body = forLoop c body := by
  cases bodyOf : c.body with
  | range range =>
      rw [Command.withState_of_none (by rw [bodyOf]; rfl)]
  | _ => simp [forLoop, bodyOf, Command.withState, CommandBody.withState]

@[simp] theorem solverLoop_withState (h : Handle) (body : Run Unit) :
    solverLoop h (c.withState state) body = solverLoop h c body := by
  cases bodyOf : c.body with
  | solverLoop l =>
      rw [Command.withState_of_none (by rw [bodyOf]; rfl)]
  | _ => simp [solverLoop, bodyOf, Command.withState, CommandBody.withState]

end Run

/-- A session shows a world of the mission that `a` was made for. -/
structure Shows (a : Arena) (t : Terms) (s : Session) (w : World) : Prop where
  objects : s.objects = w.objects
  solvers : s.solvers = w.solvers
  active : s.active = w.active
  executed : s.executed = w.executed
  warnings : s.warnings = w.warnings
  source : s.mission.source = t.source
  passLimit : s.options.passLimit = t.passLimit
  size : s.arena.slots.size = a.slots.size
  node : ∀ h, s.arena.node? h = (a.node? h).map fun node =>
    { node with command := node.command.withState (w.results h.index) }

/-- The outcomes are the same and what is left behind shows the same. -/
def Agree {α : Type} (a : Arena) (t : Terms) (x : Except Diagnostic α × Session)
    (y : Except Diagnostic α × World) : Prop :=
  x.1 = y.1 ∧ Shows a t x.2 y.2

/-- A run does what a direct reading does, wherever it starts. -/
def Simulates {α : Type} (a : Arena) (t : Terms) (r : Run α) (d : Direct α) : Prop :=
  ∀ s w, Shows a t s w → Agree a t (r s) (d w)

namespace Simulates

variable {α β : Type} {a : Arena} {t : Terms} {r : Run α} {d : Direct α} {f : α → Run β}
  {g : α → Direct β} {c : Command} {state : ResultState}

theorem value (value : α) : Simulates a t (pure value) (pure value) :=
  fun _ _ shows => ⟨rfl, shows⟩

theorem bind (first : Simulates a t r d) (second : ∀ value, Simulates a t (f value) (g value)) :
    Simulates a t (r >>= f) (d >>= g) := by
  intro s w shows
  obtain ⟨same, showsNow⟩ := first s w shows
  cases ran : r s with
  | mk outcome after =>
      cases read : d w with
      | mk result left =>
          rw [ran, read] at same showsNow
          cases same
          cases outcome with
          | error error =>
              rw [Step.bind_error ran, Step.bind_error read]
              exact ⟨rfl, showsNow⟩
          | ok value =>
              rw [Step.bind_ok ran, Step.bind_ok read]
              exact second value after left showsNow

/-- Both sides may look at what they work on. -/
theorem look {f : Session → Run β} {g : World → Direct β}
    (each : ∀ s w, Shows a t s w → Agree a t (f s s) (g w w)) :
    Simulates a t (get >>= f) (get >>= g) :=
  each

theorem change {f : Session → Session} {g : World → World}
    (each : ∀ s w, Shows a t s w → Shows a t (f s) (g w)) :
    Simulates a t (modify f) (modify g) :=
  fun s w shows => ⟨rfl, each s w shows⟩

theorem andThen {after : Session → Session} {directAfter : World → World}
    (steps : Simulates a t r d) (each : ∀ s w, Shows a t s w → Shows a t (after s) (directAfter w)) :
    Simulates a t (Run.andThen r after) (Direct.andThen d directAfter) := by
  intro s w shows
  obtain ⟨same, showsNow⟩ := steps s w shows
  exact ⟨same, each _ _ showsNow⟩

theorem fail (c : Command) (error : SequenceError) :
    Simulates a t (Run.fail c error : Run α) (Direct.fail t c error) := by
  intro s w shows
  refine ⟨?_, shows⟩
  change Except.error (s.diagnose _ error) = Except.error _
  rw [Session.diagnose, shows.source]

theorem require (c : Command) (x : Except ValueError α) :
    Simulates a t (Run.require c x) (Direct.require t c x) := by
  cases x with
  | ok result => exact .value result
  | error cause => exact .fail c _

theorem withObjects (objects : Store) :
    Simulates a t (modify (·.withObjects objects)) (modify ({ · with objects })) :=
  .change fun _ _ shows => { shows with objects := rfl }

theorem assign (c : Command) : Simulates a t (Run.assign c) (Direct.assign t c) := by
  unfold Run.assign Direct.assign
  cases c.body with
  | assignment target expression =>
      refine .look fun s w shows => ?_
      rw [shows.objects]
      exact Simulates.bind (.require c _) (fun ⟨_, objects⟩ => .withObjects objects) s w shows
  | _ => exact .value _

theorem test (c : Command) : Simulates a t (Run.test c) (Direct.test t c) := by
  unfold Run.test Direct.test
  cases c.body with
  | condition condition =>
      refine .look fun s w shows => ?_
      rw [shows.objects]
      exact Simulates.require c _ s w shows
  | _ => exact .value _

theorem skipCall (c : Command) : Simulates a t (Run.skipCall c) (Direct.skipCall t c) := by
  refine .change fun s w shows => { shows with warnings := ?_ }
  change _ :: s.warnings = _ :: w.warnings
  rw [shows.warnings, Session.diagnose, shows.source]

/-! ## Loops -/

/-- Loops keep pace if their tests and passes do. -/
theorem passes {σ : Type} (c : Command) {again : σ → Run Bool} {directAgain : σ → Direct Bool}
    {pass : σ → Run (Option σ)} {directPass : σ → Direct (Option σ)}
    (tests : ∀ x, Simulates a t (again x) (directAgain x))
    (steps : ∀ x, Simulates a t (pass x) (directPass x)) (remaining : Nat) (start : σ) :
    Simulates a t (Run.passes c again pass remaining start)
      (Direct.passes t c directAgain directPass remaining start) := by
  induction remaining generalizing start with
  | zero =>
      unfold Run.passes Direct.passes
      refine .bind (tests start) fun goes => ?_
      cases goes with
      | false => exact .value _
      | true =>
          intro s w shows
          change Agree a t (Run.fail c (.loopLimit c.typeName s.options.passLimit) s) _
          rw [shows.passLimit]
          exact Simulates.fail c _ s w shows
  | succ remaining ih =>
      unfold Run.passes Direct.passes
      refine .bind (tests start) fun goes => ?_
      cases goes with
      | false => exact .value _
      | true =>
          refine .bind (steps start) fun following => ?_
          cases following with
          | none => exact .value _
          | some state => exact ih state

theorem loop {σ : Type} (c : Command) {again : σ → Run Bool} {directAgain : σ → Direct Bool}
    {pass : σ → Run (Option σ)} {directPass : σ → Direct (Option σ)}
    (tests : ∀ x, Simulates a t (again x) (directAgain x))
    (steps : ∀ x, Simulates a t (pass x) (directPass x)) (start : σ) :
    Simulates a t (Run.loop c start again pass)
      (Direct.passes t c directAgain directPass t.passLimit start) := by
  intro s w shows
  unfold Run.loop
  rw [Step.get_bind, shows.passLimit]
  exact passes c tests steps t.passLimit start s w shows

variable {body : Run Unit} {directBody : Direct Unit}

theorem whileLoop (c : Command) (inside : Simulates a t body directBody) :
    Simulates a t (Run.whileLoop c body) (Direct.whileLoop t c directBody) :=
  .loop c (fun _ => .test c) (fun _ => .bind inside fun _ => .value _) ()

theorem forLoop (c : Command) (inside : Simulates a t body directBody) :
    Simulates a t (Run.forLoop c body) (Direct.forLoop t c directBody) := by
  unfold Run.forLoop Direct.forLoop
  cases c.body with
  | range range =>
      refine .look fun s w shows => ?_
      rw [shows.objects]
      refine Simulates.bind (.require c _) (fun bounds => ?_) s w shows
      refine .loop c (fun _ => .value _) (fun value => ?_) _
      refine .look fun s w shows => ?_
      rw [shows.objects]
      refine Simulates.bind (.require c _) (fun objects => ?_) s w shows
      exact .bind (.withObjects objects) fun _ => .bind inside fun _ => .value _
  | _ => exact .value _

theorem startSolver (c : Command) (solver : Text) :
    Simulates a t (Run.startSolver c solver) (Direct.startSolver t c solver) := by
  unfold Run.startSolver Direct.startSolver
  refine .look fun s w shows => ?_
  rw [shows.objects, shows.solvers]
  cases w.objects.get? solver with
  | none => exact Simulates.fail c _ s w shows
  | some object =>
      cases w.solvers.get? solver with
      | none => exact Simulates.fail c _ s w shows
      | some held =>
          refine ⟨rfl, { shows with solvers := rfl, active := ?_ }⟩
          change solver :: s.active = solver :: w.active
          rw [shows.active]

theorem advance (solver : Text) :
    Simulates a t (Run.advance solver) (Direct.advance solver) := by
  unfold Run.advance Direct.advance
  refine .look fun s w shows => ?_
  rw [shows.solvers]
  cases w.solvers.get? solver with
  | none => exact ⟨rfl, shows⟩
  | some held => exact ⟨rfl, { shows with solvers := rfl }⟩

end Simulates

/-! ## Commands -/

section

variable {a : Arena} {t : Terms} {position : Nat} {c : Command} {s : Session} {w : World}

/-- A command is found as it stands with its solver. -/
theorem Shows.command? (shows : Shows a t s w) (found : a.command? (.ofIndex position) = some c) :
    s.arena.command? (.ofIndex position) = some (c.withState (w.results position)) := by
  obtain ⟨node, held, rfl⟩ := Option.map_eq_some_iff.mp found
  rw [Arena.command?, shows.node, held]
  rfl

theorem Shows.enter (shows : Shows a t s w) (found : a.command? (.ofIndex position) = some c) :
    Run.enter (.ofIndex position) s =
        (.ok (c.withState (w.results position)), { s with executed := s.executed + 1 }) ∧
      Shows a t { s with executed := s.executed + 1 } { w with executed := w.executed + 1 } := by
  constructor
  · unfold Run.enter
    rw [Step.get_bind, shows.command? found]
    rfl
  · refine { shows with executed := ?_ }
    change s.executed + 1 = w.executed + 1
    rw [shows.executed]

theorem Shows.report (shows : Shows a t s w) (found : a.command? (.ofIndex position) = some c) :
    Agree a t (Run.report (.ofIndex position) (c.withState (w.results position)) s)
      (Direct.report t position c w) := by
  unfold Run.report Direct.report
  rw [Step.get_bind, Step.get_bind, Session.activeSolver?, shows.active, shows.solvers,
    shows.objects]
  cases w.active.head?.bind fun name => (w.solvers.get? name).map fun solver => (name, solver) with
  | none => exact Simulates.fail c _ s w shows
  | some entry =>
      obtain ⟨name, solver⟩ := entry
      dsimp only
      cases reports : (c.withState (w.results position)).report w.objects solver with
      | error e => exact Simulates.fail c _ s w shows
      | ok result =>
          obtain ⟨reported, after⟩ := result
          have still := Command.withState_of_report reports
          obtain ⟨node, held, rfl⟩ := Option.map_eq_some_iff.mp found
          have now := shows.node (.ofIndex position)
          rw [held] at now
          obtain ⟨b, changed⟩ := Arena.exists_modify? now ({ · with command := reported })
          refine ⟨rfl, ?_⟩
          dsimp only
          rw [changed]
          generalize reported.body.resultState?.getD .unregistered = state at still ⊢
          subst still
          refine { shows with solvers := rfl, size := ?_, node := fun other => ?_ }
          · exact (Arena.size_of_modify? changed).trans shows.size
          · refine (Arena.node?_of_modify? changed other).trans ?_
            change _ = (a.node? other).map fun found => { found with
              command := found.command.withState
                (if other.index = position then state else w.results other.index) }
            by_cases same : other = .ofIndex position
            · subst same
              rw [if_pos rfl, now, held]
              simp
            · rw [if_neg same, shows.node]
              cases elsewhere : a.node? other with
              | none => rfl
              | some found =>
                  have different : other.index ≠ position := fun index =>
                    same (Arena.eq_of_node? elsewhere held index)
                  rw [if_neg different]

/-- After a solver loop the results in its body are forgotten. -/
theorem Shows.leave {first next : Layout} {previous : Option Handle} (shows : Shows a t s w)
    (fresh : a.Fresh)
    (drawn : a.Drawn none position previous (.step c first .done next))
    (inside : first.size ≤ a.slots.size) :
    Shows a t
      { s.withArena (s.arena.forgetResults (.ofIndex position)) with active := s.active.tail }
      (Direct.leave position (1 + first.size) w) := by
  have subtree : s.arena.subtree (.ofIndex position) =
      .ofIndex position :: first.handles (position + 1) := by
    have links := Arena.subtree_congr (f := fun h c => c.withState (w.results h.index)) shows.node
      shows.size (.ofIndex position)
    rw [links, drawn.subtree_eq (by simpa using inside)]
    simp
  have member : ∀ other, a.contains other → (other ∈ s.arena.subtree (.ofIndex position) ↔
      position ≤ other.index ∧ other.index < position + (1 + first.size)) := by
    intro other live
    obtain ⟨index, _, rfl⟩ := fresh.contains_iff.mp live
    rw [subtree, List.mem_cons, Layout.mem_handles]
    simp only [Handle.ofIndex_inj, Handle.index_ofIndex]
    constructor
    · rintro (rfl | ⟨_, low, high, rfl⟩)
      · omega
      · omega
    · intro range
      by_cases same : index = position
      · exact .inl same
      · exact .inr ⟨index, by omega, by omega, rfl⟩
  refine { shows with active := ?_, size := ?_, node := fun other => ?_ }
  · change s.active.tail = w.active.tail
    rw [shows.active]
  · exact (Arena.size_forgetting _).trans shows.size
  · refine (Arena.node?_forgetting _).trans ?_
    rw [shows.node]
    change _ = (a.node? other).map fun found => { found with
      command := found.command.withState
        (if position ≤ other.index ∧ other.index < position + (1 + first.size) then .unregistered
          else w.results other.index) }
    cases held : a.node? other with
    | none => simp
    | some found =>
        have range := member other (by rw [Arena.contains, held]; rfl)
        by_cases within : other ∈ s.arena.subtree (.ofIndex position)
        · rw [if_pos within, if_pos (range.mp within)]
          simp [Command.forgetResult_withState]
        · rw [if_neg within, if_neg (fun inRange => within (range.mpr inRange))]

theorem Simulates.solverLoop {first next : Layout} {previous : Option Handle} (fresh : a.Fresh)
    (drawn : a.Drawn none position previous (.step c first .done next))
    (inside : first.size ≤ a.slots.size) {body : Run Unit} {directBody : Direct Unit}
    (bodies : Simulates a t body directBody) :
    Simulates a t (Run.solverLoop (.ofIndex position) c body)
      (Direct.solverLoop t position (1 + first.size) c directBody) := by
  unfold Run.solverLoop Direct.solverLoop
  cases c.body with
  | solverLoop l =>
      refine .bind (.startSolver c l.solver) fun _ => ?_
      refine .andThen (.loop c (fun _ => .value true) (fun _ => .bind bodies fun _ => ?_) ())
        fun s w shows => shows.leave fresh drawn inside
      by_cases guess : l.mode = .runInitialGuess
      · simp only [guess, if_true]
        exact .value none
      · simp only [guess, if_false]
        exact .bind (.advance l.solver) fun goes => .value _
  | _ => exact .value _

/-! ## Commands in their places -/

/-- A command that neither opens nor ends a block. -/
theorem Simulates.plain (found : a.command? (.ofIndex position) = some c) (isPlain : c.kind.isPlain)
    (first second : Run Unit) :
    Simulates a t (Run.command (.ofIndex position) first second) (Direct.plain t position c) := by
  intro s w shows
  obtain ⟨entered, showsNow⟩ := shows.enter found
  unfold Run.command Direct.plain Direct.count
  rw [Step.bind_ok entered, Step.modify_bind, Command.kind_withState]
  cases kind : c.kind <;> rw [kind] at isPlain <;> cases isPlain
  · exact ⟨rfl, showsNow⟩
  · exact ⟨rfl, showsNow⟩
  · rw [Run.assign_withState]
    exact Simulates.assign c _ _ showsNow
  · exact Simulates.skipCall c _ _ showsNow
  · exact showsNow.report found
  · exact showsNow.report found
  · exact ⟨rfl, showsNow⟩

/-- A command that ends a branch is counted. -/
theorem Simulates.ending (found : a.command? (.ofIndex position) = some c)
    (ends : c.kind.endsBranch) (first second : Run Unit) :
    Simulates a t (Run.command (.ofIndex position) first second) Direct.count := by
  intro s w shows
  obtain ⟨entered, showsNow⟩ := shows.enter found
  unfold Run.command Direct.count
  rw [Step.bind_ok entered, Command.kind_withState]
  cases kind : c.kind <;> rw [kind] at ends <;> first | exact ⟨rfl, showsNow⟩ | cases ends

/-- A command with one branch. -/
theorem Simulates.block {first next : Layout} {previous : Option Handle} (fresh : a.Fresh)
    (drawn : a.Drawn none position previous (.step c first .done next))
    (inside : first.size ≤ a.slots.size) (owns : c.kind.ownsBranches) {body : Run Unit}
    {directBody : Direct Unit} (bodies : Simulates a t body directBody) :
    Simulates a t (Run.command (.ofIndex position) body (pure ()))
      (Direct.block t position (1 + first.size) c directBody) := by
  intro s w shows
  have found : a.command? (.ofIndex position) = some c := by
    rw [Arena.command?, drawn.node?_ofIndex]
    rfl
  obtain ⟨entered, showsNow⟩ := shows.enter found
  unfold Run.command Direct.block Direct.count
  rw [Step.bind_ok entered, Step.modify_bind, Command.kind_withState]
  cases kind : c.kind <;> rw [kind] at owns <;> cases owns
  · rw [Run.test_withState]
    refine Simulates.bind (.test c) (fun holds => ?_) _ _ showsNow
    cases holds with
    | true => exact bodies
    | false => exact .value ()
  · rw [Run.whileLoop_withState]
    exact Simulates.whileLoop c bodies _ _ showsNow
  · rw [Run.forLoop_withState]
    exact Simulates.forLoop c bodies _ _ showsNow
  · rw [Run.solverLoop_withState]
    exact Simulates.solverLoop fresh drawn inside bodies _ _ showsNow
  · rw [Run.solverLoop_withState]
    exact Simulates.solverLoop fresh drawn inside bodies _ _ showsNow

/-- An `If` with two branches. -/
theorem Simulates.choice (found : a.command? (.ofIndex position) = some c)
    (opens : c.kind = .ifThen) {first second : Run Unit} {directFirst directSecond : Direct Unit}
    (inFirst : Simulates a t first directFirst) (inSecond : Simulates a t second directSecond) :
    Simulates a t (Run.command (.ofIndex position) first second)
      (Direct.choice t c directFirst directSecond) := by
  intro s w shows
  obtain ⟨entered, showsNow⟩ := shows.enter found
  unfold Run.command Direct.choice Direct.count
  rw [Step.bind_ok entered, Step.modify_bind, Command.kind_withState, opens]
  simp only [Run.test_withState]
  refine Simulates.bind (.test c) (fun holds => ?_) _ _ showsNow
  cases holds with
  | true => exact inFirst
  | false => exact inSecond

end

/-! ## Programs -/

theorem Program.size_layout (program : Program) : program.layout.size = program.size := by
  rw [Program.size, ← Program.commands_layout, Layout.length_commands]

end MissionScript
