import MissionScript.Proofs.Run.Between
import MissionScript.Proofs.Sequence.Loops

/-!
# How much a run does

Every loop makes at most as many passes as the limit says, so a command inside of loops runs at most as
often as a power of the limit tells. The bound is proved of the direct reading of a program, step by
step, and holds of an execution because that does the same.
-/

namespace MissionScript

namespace Direct

variable {t : Terms} {c : Command} {α β σ : Type} {m n : Nat}

/-- At most `n` commands run in a step, whether or not it succeeds. -/
def Counts (n : Nat) (step : Direct α) : Prop := ∀ w, (step w).2.executed ≤ w.executed + n

namespace Counts

variable {step : Direct α} {f : α → Direct β}

theorem mono (counts : Counts m step) (le : m ≤ n) : Counts n step :=
  fun w => Nat.le_trans (counts w) (Nat.add_le_add_left le _)

theorem value (value : α) : Counts 0 (pure value) := fun _ => Nat.le_refl _

theorem bind (first : Counts m step) (rest : ∀ value, Counts n (f value)) :
    Counts (m + n) (step >>= f) := by
  intro w
  have counted := first w
  cases ran : step w with
  | mk outcome after =>
      rw [ran] at counted
      dsimp only at counted
      cases outcome with
      | error e =>
          rw [Step.bind_error ran]
          dsimp only
          omega
      | ok value =>
          have further := rest value after
          rw [Step.bind_ok ran]
          omega

/-- No command runs in the first step. -/
theorem silent (first : Counts 0 step) (rest : ∀ value, Counts n (f value)) :
    Counts n (step >>= f) :=
  (first.bind rest).mono (Nat.le_of_eq (Nat.zero_add n))

/-- No command runs after the first step. -/
theorem only (first : Counts n step) (rest : ∀ value, Counts 0 (f value)) : Counts n (step >>= f) :=
  first.bind rest

/-- A step may look at the world. -/
theorem look {f : World → Direct β} (each : ∀ w, (f w w).2.executed ≤ w.executed + n) :
    Counts n (get >>= f) :=
  each

theorem change {f : World → World} (same : ∀ w, (f w).executed = w.executed) :
    Counts 0 (modify f) :=
  fun w => Nat.le_of_eq (same w)

theorem andThen {after : World → World} (steps : Counts n step)
    (same : ∀ w, (after w).executed = w.executed) : Counts n (Direct.andThen step after) := by
  intro w
  exact (Nat.le_of_eq (same _)).trans (steps w)

theorem fail (error : SequenceError) : Counts 0 (Direct.fail t c error : Direct α) :=
  fun _ => Nat.le_refl _

theorem require (x : Except ValueError α) : Counts 0 (Direct.require t c x) := by
  cases x with
  | error cause => exact fail _
  | ok result => exact value result

theorem count : Counts 1 Direct.count := fun _ => Nat.le_refl _

theorem withObjects (objects : Store) :
    Counts 0 (modify ({ · with objects }) : Direct Unit) :=
  change fun _ => rfl

/-! ## Commands -/

theorem assign : Counts 0 (Direct.assign t c) := by
  unfold Direct.assign
  split
  · exact look fun w => silent (require _) (fun (_, objects) => withObjects objects) w
  · exact value _

theorem test : Counts 0 (Direct.test t c) := by
  unfold Direct.test
  split
  · exact look fun w => require _ w
  · exact value _

theorem report (position : Nat) : Counts 0 (Direct.report t position c) := by
  refine look fun w => ?_
  cases w.active.head?.bind fun name => (w.solvers.get? name).map fun solver => (name, solver) with
  | none => exact fail _ w
  | some entry =>
      obtain ⟨name, solver⟩ := entry
      dsimp only
      cases (c.withState (w.results position)).report w.objects solver with
      | error e => exact fail _ w
      | ok result => exact Nat.le_refl _

theorem plain (position : Nat) : Counts 1 (Direct.plain t position c) := by
  refine count.only fun _ => ?_
  split
  · exact assign
  · exact change fun _ => rfl
  · exact report position
  · exact report position
  · exact value _

/-! ## Loops -/

theorem passes {again : σ → Direct Bool} {pass : σ → Direct (Option σ)}
    (tests : ∀ state, Counts 0 (again state)) (steps : ∀ state, Counts n (pass state))
    (remaining : Nat) (start : σ) :
    Counts (remaining * n) (Direct.passes t c again pass remaining start) := by
  induction remaining generalizing start with
  | zero =>
      unfold Direct.passes
      refine (silent (tests start) fun goes => ?_).mono (Nat.zero_le _)
      split
      · exact fail _
      · exact value _
  | succ remaining ih =>
      unfold Direct.passes
      refine silent (tests start) fun goes => ?_
      split
      · rw [Nat.succ_mul, Nat.add_comm]
        refine (steps start).bind fun next => ?_
        cases next with
        | none => exact (value _).mono (Nat.zero_le _)
        | some state => exact ih state
      · exact (value _).mono (Nat.zero_le _)

variable {body first second : Direct Unit}

theorem whileLoop (inside : Counts n body) :
    Counts (t.passLimit * n) (Direct.whileLoop t c body) :=
  passes (fun _ => test) (fun _ => inside.only fun _ => value _) _ _

theorem forLoop (inside : Counts n body) :
    Counts (t.passLimit * n) (Direct.forLoop t c body) := by
  unfold Direct.forLoop
  split
  · refine look fun w => silent (require _) (fun bounds => ?_) w
    refine passes (fun _ => value _) (fun number => ?_) _ _
    refine look fun w => silent (require _) (fun objects => ?_) w
    exact (withObjects objects).silent fun _ => inside.only fun _ => value _
  · exact (value _).mono (Nat.zero_le _)

theorem startSolver (solver : Text) : Counts 0 (Direct.startSolver t c solver) := by
  refine look fun w => ?_
  cases w.objects.get? solver with
  | none => exact fail _ w
  | some object =>
      cases w.solvers.get? solver with
      | none => exact fail _ w
      | some held => exact Nat.le_refl _

theorem advance (solver : Text) : Counts 0 (Direct.advance solver) := by
  refine look fun w => ?_
  cases w.solvers.get? solver with
  | none => exact Nat.le_refl _
  | some held => exact Nat.le_refl _

theorem solverLoop (inside : Counts n body) (position size : Nat) :
    Counts (t.passLimit * n) (Direct.solverLoop t position size c body) := by
  unfold Direct.solverLoop
  split
  · rename_i l _
    refine (startSolver l.solver).silent fun _ => ?_
    refine andThen (passes (fun _ => value _) (fun _ => inside.only fun _ => ?_) _ _) fun _ => rfl
    split
    · exact value _
    · exact (advance l.solver).silent fun _ => value _
  · exact (value _).mono (Nat.zero_le _)

/-! ## Blocks -/

/-- A loop may run its branch up to the limit, an `If` runs it once. -/
theorem block (owns : c.kind.ownsBranches) (inside : Counts n body) (position size : Nat) :
    Counts (1 + (if c.kind.isLoop then t.passLimit else 1) * n)
      (Direct.block t position size c body) := by
  refine count.bind fun _ => ?_
  cases kind : c.kind <;> rw [kind] at owns <;> cases owns <;>
    simp only [CommandKind.isLoop, if_true, Bool.false_eq_true, if_false]
  · refine silent test fun holds => ?_
    rw [Nat.one_mul]
    split
    · exact inside
    · exact (value _).mono (Nat.zero_le _)
  · exact whileLoop inside
  · exact forLoop inside
  · exact solverLoop inside position size
  · exact solverLoop inside position size

theorem choice (inFirst : Counts m first) (inSecond : Counts n second) :
    Counts (1 + (m + n)) (Direct.choice t c first second) := by
  refine count.bind fun _ => silent test fun holds => ?_
  split
  · exact inFirst.mono (Nat.le_add_right m n)
  · exact inSecond.mono (Nat.le_add_left n m)

end Counts

end Direct

/-- A program runs no more commands than the work of its layout says. -/
theorem Program.counts (t : Terms) (program : Program) (position : Nat) :
    Direct.Counts (program.layout.work t.passLimit) (program.run t position) := by
  induction program generalizing position with
  | done => exact .value _
  | plain c isPlain next ih =>
      refine ((Direct.Counts.plain position).bind fun _ => ih _).mono ?_
      simp [Program.layout, Layout.work_step]
  | script opener opens body closer closes next bodyIH nextIH =>
      refine (Direct.Counts.count.bind fun _ => (bodyIH _).bind fun _ => nextIH _).mono ?_
      simp [Program.layout, Layout.work_step, Layout.work_append]
  | block opener body closer ends next bodyIH nextIH =>
      have owns := CommandKind.ownsBranches_of_branchEnds ends
      have inside := (bodyIH (position + 1)).bind fun _ => Direct.Counts.count
      refine ((Direct.Counts.block owns inside _ _).bind fun _ => nextIH _).mono (Nat.le_of_eq ?_)
      simp [Program.layout, Layout.work_step, Layout.work_append]
  | choice opener opens first alternative turns second closer closes next firstIH secondIH nextIH =>
      have inFirst := (firstIH (position + 1)).bind fun _ => Direct.Counts.count
      have inSecond := (secondIH (position + 1 + (first.size + 1))).bind fun _ => Direct.Counts.count
      refine ((Direct.Counts.choice inFirst inSecond).bind fun _ => nextIH _).mono (Nat.le_of_eq ?_)
      simp [Program.layout, Layout.work_step, Layout.work_append, opens, CommandKind.isLoop]

namespace Session

variable {program : Program} {s : Session}

namespace AtRest

/-- The powers of the limit over all commands of a session, of which the head is one. -/
theorem sum_loopsAround (rest : s.AtRest program) (limit : Nat) :
    (s.commands.map fun h => limit ^ s.arena.loopsAround s.mission.head h).sum =
      1 + program.layout.work limit := by
  have drawn := rest.draws.drawn
  have full := rest.draws.full
  have listed := Arena.Drawn.commandsFrom_eq drawn full (by simp)
  unfold commands Arena.loopsAround arena
  rw [rest.draws.head, listed, drawn.sum_loopsAmong (Nat.le_of_eq full.symm), Layout.work_step,
    Layout.work_done]
  omega

end AtRest

/-- A session that is ready executes no more commands than its program has work. -/
theorem executed_le_work (rest : s.AtRest program) (ready : s.ready = true) :
    (execute s).2.executed ≤ program.layout.work s.options.passLimit := by
  have shown := (rest.draws.simulates ⟨s.mission.source, s.options.passLimit⟩ _ _ rest.shows).2
  rw [execute_snd ready]
  refine (Nat.le_of_eq shown.executed).trans ?_
  exact (program.counts _ 1 _).trans (Nat.le_of_eq (Nat.zero_add _))

theorem ready_execute (ready : s.ready = true) : (execute s).2.ready = true := by
  rw [execute_snd ready]
  exact ((s.arena.plan s.mission.head).stays_run _).ready.trans ready

/-- No command has been executed in a session that is not ready. -/
theorem Reached.executed_of_unready {start : Session} (reached : Reached start s)
    (before : start.executed = 0) (unready : s.ready = false) : s.executed = 0 := by
  induction reached with
  | start => exact before
  | @prepare s _ ih =>
      rcases prepare_cases s with ⟨e, -, failed⟩ | ⟨-, done⟩
      · rw [failed, addSolvers_eq] at unready ⊢
        exact ih unready
      · rw [done] at unready
        cases unready
  | @execute s _ ih =>
      cases ready : s.ready with
      | true => exact absurd (unready.symm.trans (ready_execute ready)) Bool.false_ne_true
      | false =>
          rw [execute_of_unready ready] at unready ⊢
          rcases prepare_cases s with ⟨e, -, failed⟩ | ⟨-, done⟩
          · rw [Step.bind_error failed, addSolvers_eq]
            exact ih ready
          · rw [Step.bind_ok done] at unready
            exact absurd (unready.symm.trans (ready_execute rfl)) Bool.false_ne_true
  | @rename s objectType old new _ ih =>
      revert unready
      unfold Session.rename
      split
      · exact ih
      · exact ih

/-- An execution runs no more commands than its program has work, also when it cannot start. -/
theorem executed_execute_le (rest : s.AtRest program) (before : s.ready = false → s.executed = 0) :
    (execute s).2.executed ≤ program.layout.work s.options.passLimit := by
  cases ready : s.ready with
  | true => exact executed_le_work rest ready
  | false =>
      rw [execute_of_unready ready]
      rcases prepare_cases s with ⟨e, -, failed⟩ | ⟨-, done⟩
      · rw [Step.bind_error failed, addSolvers_eq]
        exact (Nat.le_of_eq (before ready)).trans (Nat.zero_le _)
      · have options : s.addSolvers.options = s.options := by rw [addSolvers_eq]
        rw [Step.bind_ok done, ← options]
        exact executed_le_work rest.started rfl

/-- A report tells the number of commands that have been executed. -/
theorem executed_of_report {report : RunReport} (ran : (execute s).1 = .ok report) :
    report.executed = (execute s).2.executed := by
  have told {s : Session} (ready : s.ready = true) (ran : (execute s).1 = .ok report) :
      report.executed = (execute s).2.executed := by
    rw [execute_of_ready ready] at ran ⊢
    split at ran
    · cases ran
      rfl
    · cases ran
  cases ready : s.ready with
  | true => exact told ready ran
  | false =>
      rw [execute_of_unready ready] at ran ⊢
      rcases prepare_cases s with ⟨e, -, failed⟩ | ⟨-, done⟩
      · rw [Step.bind_error failed] at ran
        cases ran
      · rw [Step.bind_ok done] at ran ⊢
        exact told rfl ran

/-- Executing a session of an accepted source ends: its links lead to later slots, so that no walk along
them is cut short, and no loop makes more passes than the limit says. The number of commands that run is
below the sum, over all commands of the sequence, of the limit to the power of the number of loops
around the command; this holds whether or not the execution succeeds, and of every execution between
other executions and renamings. -/
theorem execute_bounded {keywords : Keywords} {source : Nat} {text : Text} {m : Mission}
    (accepted : Mission.ofSource keywords source text = .ok m) {options : RunOptions}
    {objects : Store} (reached : Reached { mission := { m with objects }, options } s) :
    s.arena.Ascends ∧
      (∀ limit, s.arena.slots.size < limit →
        s.arena.planFrom limit none (s.arena.next? s.mission.head) = s.arena.plan s.mission.head) ∧
      (execute s).2.executed <
        (s.commands.map fun h =>
          s.options.passLimit ^ s.arena.loopsAround s.mission.head h).sum ∧
      ∀ report, (execute s).1 = .ok report → report.executed = (execute s).2.executed := by
  obtain ⟨program, rest⟩ := reached.atRest (exists_atRest accepted objects options)
  have drawn := rest.draws.drawn
  have full := rest.draws.full
  refine ⟨drawn.ascends rest.draws.fresh full, fun limit enough => ?_, ?_,
    fun report ran => executed_of_report ran⟩
  · have size := full
    rw [Layout.size_step, Layout.size_done] at size
    have next := drawn.next?_ofIndex
    have whole := Arena.plan_eq program drawn (by omega)
    have plans := Arena.plans_program program drawn (by omega)
    unfold arena at enough ⊢
    rw [rest.draws.head, whole, next]
    exact plans limit (by omega)
  · have executed := executed_execute_le rest (reached.executed_of_unready rfl)
    rw [rest.sum_loopsAround]
    omega

/-- A solver loop that makes two passes over its two commands, after the head and the loop itself. -/
theorem execute_bounded_target :
    ∃ m, Mission.ofSource .builtin 0 "Create SQP A;\nTarget A\nStop;\nEndTarget;".toList = .ok m ∧
      m.arena.Ascends ∧
      (∀ limit, m.arena.slots.size < limit →
        m.arena.planFrom limit none (m.arena.next? m.head) = m.arena.plan m.head) ∧
      (execute { mission := m, options := { passLimit := 2 } }).2.executed <
        ((m.arena.commandsFrom m.head).map fun h => 2 ^ m.arena.loopsAround m.head h).sum ∧
      (∀ report, (execute { mission := m, options := { passLimit := 2 } }).1 = .ok report →
        report.executed = (execute { mission := m, options := { passLimit := 2 } }).2.executed) ∧
      ((m.arena.commandsFrom m.head).map fun h => 2 ^ m.arena.loopsAround m.head h) =
        [1, 1, 2, 2] := by
  have powers : ((Mission.ofSource .builtin 0
      "Create SQP A;\nTarget A\nStop;\nEndTarget;".toList).map fun m =>
        (m.arena.commandsFrom m.head).map fun h => 2 ^ m.arena.loopsAround m.head h).toOption =
          some [1, 1, 2, 2] := by
    decide +kernel
  cases accepted : Mission.ofSource .builtin 0
      "Create SQP A;\nTarget A\nStop;\nEndTarget;".toList with
  | error errors =>
      rw [accepted] at powers
      cases powers
  | ok m =>
      rw [accepted] at powers
      have reached : Reached
          { mission := { m with objects := m.objects }, options := { passLimit := 2 } } _ := .start
      obtain ⟨ascends, planned, below, told⟩ := execute_bounded accepted reached
      exact ⟨m, rfl, ascends, planned, below, told, Option.some.inj powers⟩

end Session

end MissionScript
