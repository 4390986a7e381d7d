import MissionScript.Proofs.Run.Correctness
import MissionScript.Proofs.Run.Keeping
import MissionScript.Proofs.Run.Recording

/-!
# Repeated runs

A session that is ready can be executed again and again. An execution leaves the sequence as it was,
with no results registered, so that each one performs the program of the mission on the objects and
solvers that the one before it has left.
-/

namespace MissionScript

/-- Solvers are held under their names. -/
def Session.Named (s : Session) : Prop :=
  ∀ name solver, s.solvers.get? name = some solver → solver.name = name

/-- What no run changes. -/
structure Session.Stays (s next : Session) : Prop where
  head : next.mission.head = s.mission.head
  options : next.options = s.options
  ready : next.ready = s.ready
  active : next.active = s.active
  named : s.Named → next.Named

namespace Session.Stays

variable {s middle next : Session}

theorem refl (s : Session) : s.Stays s := ⟨rfl, rfl, rfl, rfl, id⟩

theorem trans (first : s.Stays middle) (second : middle.Stays next) : s.Stays next where
  head := second.head.trans first.head
  options := second.options.trans first.options
  ready := second.ready.trans first.ready
  active := second.active.trans first.active
  named := second.named ∘ first.named

end Session.Stays

/-- A solver takes the place of one with the same name. -/
theorem Session.Named.insert {s : Session} (named : s.Named) {name : Text} {solver after : DryRun}
    (held : s.solvers.get? name = some solver) (same : after.name = solver.name) :
    Session.Named { s with solvers := s.solvers.insert name after } :=
  Table.forall_insert named (same.trans (named name solver held))

namespace Run

variable {α β σ : Type} {r : Run α} {f : α → Run β} {c : Command} {h : Handle}

/-- A step that changes nothing of this. -/
def Stays (r : Run α) : Prop := ∀ s : Session, s.Stays (r s).2

/-- Nothing of this is lost wherever the step starts. -/
theorem stays_iff_keeps : Stays r ↔ ∀ first : Session, Step.Keeps first.Stays r :=
  ⟨fun stays _ s now => now.trans (stays s), fun keeps s => keeps s s (.refl s)⟩

theorem stays_pure (value : α) : Stays (pure value) := fun s => .refl s

theorem Stays.bind (first : Stays r) (rest : ∀ value, Stays (f value)) : Stays (r >>= f) :=
  stays_iff_keeps.mpr fun start =>
    (stays_iff_keeps.mp first start).bind fun value => stays_iff_keeps.mp (rest value) start

theorem Stays.look {f : Session → Run β} (each : ∀ s : Session, s.Stays (f s s).2) :
    Stays (get >>= f) :=
  each

theorem Stays.change {f : Session → Session} (each : ∀ s : Session, s.Stays (f s)) :
    Stays (modify f) :=
  each

theorem stays_fail (c : Command) (error : SequenceError) : Stays (fail c error : Run α) :=
  stays_iff_keeps.mpr fun _ => keeps_fail c error

theorem stays_require (c : Command) (x : Except ValueError α) : Stays (require c x) :=
  stays_iff_keeps.mpr fun _ => keeps_require c x

theorem stays_enter (h : Handle) : Stays (enter h) := by
  refine .look fun s => ?_
  cases s.arena.command? h with
  | none => exact .refl s
  | some c => exact ⟨rfl, rfl, rfl, rfl, id⟩

theorem stays_withObjects (objects : Store) : Stays (modify (·.withObjects objects)) :=
  .change fun _ => ⟨rfl, rfl, rfl, rfl, id⟩

theorem stays_assign (c : Command) : Stays (assign c) := by
  unfold assign
  split
  · exact .look fun s => Stays.bind (stays_require c _) (fun _ => stays_withObjects _) s
  · exact stays_pure _

theorem stays_test (c : Command) : Stays (test c) := stays_iff_keeps.mpr fun _ => keeps_test c

theorem stays_skipCall (c : Command) : Stays (skipCall c) := .change fun _ => ⟨rfl, rfl, rfl, rfl, id⟩

theorem stays_report (h : Handle) (c : Command) : Stays (report h c) := by
  refine .look fun s => ?_
  cases innermost : s.activeSolver? with
  | none => exact stays_fail c _ s
  | some entry =>
      obtain ⟨name, solver⟩ := entry
      dsimp only
      cases reports : c.report s.objects solver with
      | error e => exact stays_fail c _ s
      | ok result =>
          refine ⟨rfl, rfl, rfl, rfl, fun named => ?_⟩
          obtain ⟨_, -, inner⟩ := Option.bind_eq_some_iff.mp innermost
          obtain ⟨_, held, same⟩ := Option.map_eq_some_iff.mp inner
          cases same
          exact named.insert held (Command.name_of_report reports)

theorem Stays.loop {again : σ → Run Bool} {pass : σ → Run (Option σ)} {start : σ}
    (tests : ∀ state, Stays (again state)) (steps : ∀ state, Stays (pass state)) :
    Stays (Run.loop c start again pass) :=
  stays_iff_keeps.mpr fun first => keeps_loop (fun state => stays_iff_keeps.mp (tests state) first)
    fun state => stays_iff_keeps.mp (steps state) first

variable {body first second : Run Unit}

theorem Stays.whileLoop (inside : Stays body) : Stays (Run.whileLoop c body) :=
  stays_iff_keeps.mpr fun start => keeps_whileLoop (stays_iff_keeps.mp inside start)

theorem Stays.forLoop (inside : Stays body) : Stays (Run.forLoop c body) :=
  stays_iff_keeps.mpr fun start => keeps_forLoop (stays_iff_keeps.mp inside start)
    fun _ _ _ _ _ now _ => now.trans ⟨rfl, rfl, rfl, rfl, id⟩

/-- Starting a solver fails, or there is a solver that is started. -/
theorem startSolver_cases (c : Command) (name : Text) (s : Session) :
    startSolver c name s =
        (fail c (.unresolvedReference c.subject (.noSolver name)) : Run Unit) s ∨
      ∃ solver limit, s.solvers.get? name = some solver ∧
        startSolver c name s = (.ok (), { s with
          solvers := s.solvers.insert name (solver.start limit)
          active := name :: s.active }) := by
  unfold startSolver
  rw [Step.get_bind]
  cases s.objects.get? name with
  | none => exact .inl rfl
  | some object =>
      cases s.solvers.get? name with
      | none => exact .inl rfl
      | some solver => exact .inr ⟨solver, object.parameter? maximumIterations, rfl, rfl⟩

theorem stays_advance (solver : Text) : Stays (advance solver) := by
  refine .look fun s => ?_
  cases found : s.solvers.get? solver with
  | none => exact .refl s
  | some held => exact ⟨rfl, rfl, rfl, rfl, fun named => named.insert found rfl⟩

/-- A solver is running until its loop is left. -/
theorem Stays.started {solver : Text} {inner : Run Unit} (steps : Stays inner) :
    Stays (startSolver c solver >>= fun _ => Run.andThen inner fun s =>
      { s.withArena (s.arena.forgetResults h) with active := s.active.tail }) := by
  intro s
  rcases startSolver_cases c solver s with failed | ⟨held, limit, found, started⟩
  · rw [Step.bind_error failed]
    exact .refl s
  · rw [Step.bind_ok started]
    have kept := steps { s with
      solvers := s.solvers.insert solver (held.start limit)
      active := solver :: s.active }
    refine ⟨kept.head, kept.options, kept.ready, congrArg List.tail kept.active, fun named => ?_⟩
    exact kept.named (named.insert found rfl)

theorem Stays.solverLoop (inside : Stays body) : Stays (Run.solverLoop h c body) := by
  unfold Run.solverLoop
  split
  · rename_i l body
    refine .started (.loop (fun _ => stays_pure _) fun _ => inside.bind fun _ => ?_)
    split
    · exact stays_pure _
    · exact (stays_advance l.solver).bind fun _ => stays_pure _
  · exact stays_pure _

theorem Stays.command (inFirst : Stays first) (inSecond : Stays second) :
    Stays (Run.command h first second) := by
  refine (stays_enter h).bind fun c => ?_
  split
  · exact stays_assign c
  · exact stays_skipCall c
  · refine (stays_test c).bind fun holds => ?_
    split
    · exact inFirst
    · exact inSecond
  · exact inFirst.whileLoop
  · exact inFirst.forLoop
  · exact inFirst.solverLoop
  · exact inFirst.solverLoop
  · exact stays_report h c
  · exact stays_report h c
  · exact stays_pure _

end Run

theorem Plan.stays_run (plan : Plan) : Run.Stays plan.run := by
  induction plan with
  | done => exact Run.stays_pure _
  | lost h => exact (Run.stays_enter h).bind fun _ => Run.stays_pure _
  | step h first second next firstIH secondIH nextIH =>
      exact (Run.Stays.command firstIH secondIH).bind fun _ => nextIH
  | script h body next bodyIH nextIH =>
      exact (Run.stays_enter h).bind fun _ => bodyIH.bind fun _ => nextIH
  | openScript h body ih =>
      exact (Run.stays_enter h).bind fun c => ih.bind fun _ => Run.stays_fail c _

/-! ## One execution after the other -/

/-- A world between two runs: no results are registered, and nothing has been counted. -/
def World.reset (w : World) : World :=
  { w with results := fun _ => .unregistered, executed := 0, warnings := [] }

namespace Session

/-- The sessions to which executing again and again leads. -/
inductive Executed (start : Session) : Session → Prop
  | none : Executed start start
  | again {s : Session} : Executed start s → Executed start (execute s).2

variable {m : Mission} {program : Program} {t : Terms} {s : Session} {w : World}

theorem execute_snd (ready : s.ready = true) :
    (execute s).2 = forgetResults
      ((s.arena.plan s.mission.head).run { s with executed := 0, warnings := [] }).2 := by
  rw [execute_of_ready ready, Run.andThen]
  cases ran : (s.arena.plan s.mission.head).run { s with executed := 0, warnings := [] } with
  | mk outcome after => cases outcome <;> rfl

/-- A session that shows a world has the plan that it started with. -/
theorem plan_of_shows (shows : Shows m.arena t { s with executed := 0, warnings := [] } w)
    (head : s.mission.head = m.head) : s.arena.plan s.mission.head = m.arena.plan m.head := by
  rw [head]
  exact Arena.plan_congr shows.node (fun _ _ => Command.kind_withState) shows.size _

/-- The commands behind the head. -/
theorem commands_behind (draws : m.Draws program) :
    (m.arena.next? m.head).elim [] m.arena.commandsFrom = program.layout.handles 1 := by
  have full := draws.full
  rw [Layout.size_step, Layout.size_done] at full
  have enough : program.layout.size ≤ m.arena.slots.size := by omega
  have walked := draws.drawn.after.handles_walkFrom enough 0
  have next : m.arena.next? m.head = program.layout.start 1 none := by
    rw [draws.head]
    exact draws.drawn.next?_ofIndex
  rw [next]
  cases first : program.layout.start 1 none with
  | none =>
      rw [first] at walked
      exact walked
  | some h =>
      rw [first] at walked
      simpa [Arena.commandsFrom, Arena.walk] using walked

/-- At the end of an execution all results are forgotten. -/
theorem shows_forgetResults (draws : m.Draws program) (shows : Shows m.arena t s w)
    (head : s.mission.head = m.head) :
    Shows m.arena t (forgetResults s) { w with results := fun _ => .unregistered } := by
  have handles : (s.arena.next? s.mission.head).elim [] s.arena.commandsFrom =
      program.layout.handles 1 := by
    rw [head, Arena.next?_congr shows.node, funext (Arena.commandsFrom_congr shows.node shows.size)]
    exact commands_behind draws
  unfold forgetResults
  rw [handles]
  refine { shows with size := ?_, node := fun h => ?_ }
  · exact (Arena.size_forgetting _).trans shows.size
  · refine (Arena.node?_forgetting _).trans ?_
    rw [shows.node]
    cases found : m.arena.node? h with
    | none => simp
    | some node =>
        by_cases listed : h ∈ program.layout.handles 1
        · rw [if_pos listed]
          simp [Command.forgetResult_withState]
        · have own : node = (Layout.node none 0 none (.ofKind .noOp) .done .done program.layout) := by
            have live : m.arena.contains h := by
              rw [Arena.contains, found]
              rfl
            have member := (Arena.Drawn.contains_iff draws.fresh draws.full h).mp live
            rw [Layout.handles_step, List.mem_cons] at member
            rcases member with rfl | member
            · rw [draws.drawn.node?_ofIndex] at found
              exact (Option.some.inj found).symm
            · exact absurd member listed
          rw [if_neg listed, own]
          rfl

section

variable {ready : Session} {holds : World → Prop} (draws : m.Draws program)
  (isReady : ready.ready = true) (head : ready.mission.head = m.head)
  (shows : Shows m.arena t { ready with executed := 0, warnings := [] } w) (first : holds w)
  (kept : ∀ w, holds w → holds (program.run t 1 w).2.reset) (executed : Executed ready s)

include draws isReady head shows first kept executed

/-- What holds of the world of a session that is ready, and is kept by every run of the program, holds
of the world that a later execution starts with. -/
theorem Executed.exists_shown : s.ready = true ∧ s.mission.head = m.head ∧
    ∃ w, holds w ∧ Shows m.arena t { s with executed := 0, warnings := [] } w := by
  induction executed with
  | none => exact ⟨isReady, head, w, first, shows⟩
  | @again s _ ih =>
      obtain ⟨isReady, head, w, now, shows⟩ := ih
      have plan := plan_of_shows shows head
      have stays := (s.arena.plan s.mission.head).stays_run
        { s with executed := 0, warnings := [] }
      rw [execute_snd isReady]
      have shown := (draws.simulates t _ w shows).2
      rw [← plan] at shown
      have forgotten := shows_forgetResults draws shown (stays.head.trans head)
      exact ⟨stays.ready.trans isReady, stays.head.trans head, _, kept w now,
        { forgotten with executed := rfl, warnings := rfl }⟩

/-- A later execution performs the program on such a world. -/
theorem Executed.exists_world : ∃ w, holds w ∧ s.Performs t program w := by
  obtain ⟨isReady, head, w, now, shows⟩ :=
    executed.exists_shown draws isReady head shows first kept
  have plan := plan_of_shows shows head
  exact ⟨w, now, draws.performs isReady plan shows⟩

end

end Session

end MissionScript
