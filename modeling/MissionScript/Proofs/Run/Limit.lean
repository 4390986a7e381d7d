import MissionScript.Proofs.Command.Value
import MissionScript.Proofs.Run.Correctness

/-!
# Larger limits

The limit on the passes of a loop stops a loop and does nothing else: a run that does not reach it goes
the same way under every larger one. A step under the larger limit is compared with the same step under
the smaller one; how many passes a loop may still make is the only place where the two differ.
-/

namespace MissionScript

/-- A loop has reached the limit on its passes. -/
def SequenceError.isLoopLimit : SequenceError → Bool
  | loopLimit .. => true
  | _ => false

/-- No loop has reached the limit on its passes. -/
def Uncut {α : Type} (x : Except Diagnostic α) : Prop := Outcome.Only (·.error.isLoopLimit = false) x

/-- The session with another limit on the passes of a loop. -/
def Session.withPassLimit (s : Session) (limit : Nat) : Session :=
  { s with options := { s.options with passLimit := limit } }

namespace Run

variable {low high : Nat} {α β σ : Type} {c : Command} {h : Handle}

/-- The second step ends like the first one, with the limit `high` where the first has `low`. -/
structure Follows (low high : Nat) (x y : Except Diagnostic α × Session) : Prop where
  limit : x.2.options.passLimit = low
  same : y = (x.1, x.2.withPassLimit high)

/-- Unless `below` reaches the limit `low`, `above` goes the same way under the limit `high`. -/
def Extends (low high : Nat) (below above : Run α) : Prop :=
  ∀ s : Session, s.options.passLimit = low → Uncut (below s).1 →
    Follows low high (below s) (above (s.withPassLimit high))

namespace Extends

variable {below above : Run α} {f g : α → Run β}

theorem value (value : α) : Extends low high (pure value) (pure value) :=
  fun _ limit _ => ⟨limit, rfl⟩

theorem bind (first : Extends low high below above)
    (rest : ∀ value, Extends low high (f value) (g value)) :
    Extends low high (below >>= f) (above >>= g) := by
  intro s limit uncut
  have both := first s limit
  cases ran : below s with
  | mk outcome after =>
      rw [ran] at both
      cases outcome with
      | error e =>
          rw [Step.bind_error ran] at uncut ⊢
          obtain ⟨limit, same⟩ := both (.error (uncut e rfl))
          exact ⟨limit, Step.bind_error same⟩
      | ok value =>
          rw [Step.bind_ok ran] at uncut ⊢
          obtain ⟨limit, same⟩ := both (.ok value)
          rw [Step.bind_ok same]
          exact rest value after limit uncut

/-- Both steps may look at the session. -/
theorem look {f g : Session → Run β}
    (each : ∀ s : Session, s.options.passLimit = low → Uncut (f s s).1 →
      Follows low high (f s s) (g (s.withPassLimit high) (s.withPassLimit high))) :
    Extends low high (get >>= f) (get >>= g) :=
  each

theorem change {f : Session → Session} (limit : ∀ s, (f s).options.passLimit = s.options.passLimit)
    (commutes : ∀ s, f (s.withPassLimit high) = (f s).withPassLimit high) :
    Extends low high (modify f) (modify f) :=
  fun s same _ => ⟨(limit s).trans same, congrArg (Prod.mk _) (commutes s)⟩

theorem andThen {after : Session → Session} (steps : Extends low high below above)
    (limit : ∀ s, (after s).options.passLimit = s.options.passLimit)
    (commutes : ∀ s, after (s.withPassLimit high) = (after s).withPassLimit high) :
    Extends low high (Run.andThen below after) (Run.andThen above after) := by
  intro s start uncut
  obtain ⟨still, same⟩ := steps s start uncut
  refine ⟨(limit _).trans still, ?_⟩
  unfold Run.andThen
  rw [same]
  exact congrArg (Prod.mk _) (commutes _)

theorem fail (error : SequenceError) :
    Extends low high (Run.fail c error : Run α) (Run.fail c error) :=
  fun _ limit _ => ⟨limit, rfl⟩

theorem require (x : Except ValueError α) :
    Extends low high (Run.require c x) (Run.require c x) := by
  cases x with
  | error cause => exact fail _
  | ok value => exact .value value

theorem withObjects (objects : Store) :
    Extends low high (modify (·.withObjects objects)) (modify (·.withObjects objects)) :=
  change (fun _ => rfl) fun _ => rfl

/-! ## Commands -/

theorem enter : Extends low high (Run.enter h) (Run.enter h) := by
  refine look fun s limit _ => ?_
  rw [show (s.withPassLimit high).arena = s.arena from rfl]
  cases s.arena.command? h with
  | none => exact ⟨limit, rfl⟩
  | some c => exact ⟨limit, rfl⟩

theorem assign : Extends low high (Run.assign c) (Run.assign c) := by
  unfold Run.assign
  split
  · exact look fun s => bind (require _) (fun (_, objects) => withObjects objects) s
  · exact value _

theorem test : Extends low high (Run.test c) (Run.test c) := by
  unfold Run.test
  split
  · exact look fun s => require _ s
  · exact value _

theorem skipCall : Extends low high (Run.skipCall c) (Run.skipCall c) :=
  change (fun _ => rfl) fun _ => rfl

theorem report : Extends low high (Run.report h c) (Run.report h c) := by
  refine look fun s limit uncut => ?_
  have unchanged : (s.withPassLimit high).activeSolver? = s.activeSolver? := rfl
  rw [unchanged]
  cases innermost : s.activeSolver? with
  | none => exact fail _ s limit (by rwa [innermost] at uncut)
  | some entry =>
      obtain ⟨name, solver⟩ := entry
      have objects : (s.withPassLimit high).objects = s.objects := rfl
      dsimp only
      rw [objects]
      cases reports : c.report s.objects solver with
      | error e => exact fail _ s limit (by simpa only [innermost, reports] using uncut)
      | ok result => exact ⟨limit, rfl⟩

/-! ## Loops -/

/-- A loop that has reached the limit is cut, whatever it would do under another one. -/
theorem cut (above : Run Unit) :
    Extends low high
      (do Run.fail c (.loopLimit c.typeName (← get).options.passLimit)) above := by
  intro s _ uncut
  have limit : (Diagnostic.locate (.loopLimit c.typeName s.options.passLimit) c.span
      s.mission.source).error.isLoopLimit = false := uncut _ rfl
  cases span : c.span <;> rw [span] at limit <;> cases limit

/-- A loop that may make more passes makes the same ones. -/
theorem passes {again : σ → Run Bool} {pass : σ → Run (Option σ)}
    (tests : ∀ state, Extends low high (again state) (again state))
    (steps : ∀ state, Extends low high (pass state) (pass state)) {remaining more : Nat}
    (le : remaining ≤ more) (start : σ) :
    Extends low high (Run.passes c again pass remaining start)
      (Run.passes c again pass more start) := by
  induction remaining generalizing more start with
  | zero =>
      unfold Run.passes
      refine (tests start).bind fun goes => ?_
      cases goes with
      | false => exact value ()
      | true => exact cut _
  | succ remaining ih =>
      obtain ⟨more, rfl⟩ := Nat.exists_eq_add_of_le' (Nat.le_trans (Nat.le_add_left 1 remaining) le)
      unfold Run.passes
      refine (tests start).bind fun goes => ?_
      cases goes with
      | false => exact value ()
      | true =>
          refine (steps start).bind fun next => ?_
          cases next with
          | none => exact value ()
          | some state => exact ih (Nat.le_of_succ_le_succ le) state

section

variable (le : low ≤ high)

include le

theorem loop {start : σ} {again : σ → Run Bool} {pass : σ → Run (Option σ)}
    (tests : ∀ state, Extends low high (again state) (again state))
    (steps : ∀ state, Extends low high (pass state) (pass state)) :
    Extends low high (Run.loop c start again pass) (Run.loop c start again pass) := by
  refine look fun s limit => ?_
  have more : (s.withPassLimit high).options.passLimit = high := rfl
  rw [limit, more]
  exact passes tests steps le start s limit

variable {body first second : Run Unit}

theorem whileLoop (inside : Extends low high body body) :
    Extends low high (Run.whileLoop c body) (Run.whileLoop c body) :=
  loop le (fun _ => test) fun _ => inside.bind fun _ => value _

theorem forLoop (inside : Extends low high body body) :
    Extends low high (Run.forLoop c body) (Run.forLoop c body) := by
  unfold Run.forLoop
  split
  · refine look fun s => bind (require _) (fun bounds => ?_) s
    refine loop le (fun _ => value _) fun number => ?_
    refine look fun s => bind (require _) (fun objects => ?_) s
    exact (withObjects objects).bind fun _ => inside.bind fun _ => value _
  · exact value _

end

theorem startSolver (solver : Text) :
    Extends low high (Run.startSolver c solver) (Run.startSolver c solver) := by
  refine look fun s limit uncut => ?_
  have objects : (s.withPassLimit high).objects = s.objects := rfl
  have solvers : (s.withPassLimit high).solvers = s.solvers := rfl
  rw [objects, solvers]
  cases object : s.objects.get? solver with
  | none => exact fail _ s limit (by simpa only [object] using uncut)
  | some found =>
      cases held : s.solvers.get? solver with
      | none => exact fail _ s limit (by simpa only [object, held] using uncut)
      | some running => exact ⟨limit, rfl⟩

theorem advance (solver : Text) :
    Extends low high (Run.advance solver) (Run.advance solver) := by
  refine look fun s limit _ => ?_
  have solvers : (s.withPassLimit high).solvers = s.solvers := rfl
  rw [solvers]
  cases s.solvers.get? solver with
  | none => exact ⟨limit, rfl⟩
  | some held => exact ⟨limit, rfl⟩

section

variable (le : low ≤ high) {body first second : Run Unit}

include le

theorem solverLoop (inside : Extends low high body body) :
    Extends low high (Run.solverLoop h c body) (Run.solverLoop h c body) := by
  unfold Run.solverLoop
  split
  · rename_i l _
    refine (startSolver l.solver).bind fun _ => ?_
    refine andThen (loop le (fun _ => value _) fun _ => inside.bind fun _ => ?_) (fun _ => rfl)
      fun _ => rfl
    split
    · exact value _
    · exact (advance l.solver).bind fun _ => value _
  · exact value _

theorem command (inFirst : Extends low high first first) (inSecond : Extends low high second second) :
    Extends low high (Run.command h first second) (Run.command h first second) := by
  refine enter.bind fun c => ?_
  split
  · exact assign
  · exact skipCall
  · refine test.bind fun holds => ?_
    split
    · exact inFirst
    · exact inSecond
  · exact whileLoop le inFirst
  · exact forLoop le inFirst
  · exact solverLoop le inFirst
  · exact solverLoop le inFirst
  · exact report
  · exact report
  · exact value _

/-- A plan that is run under a larger limit. -/
theorem plan (plan : Plan) : Extends low high plan.run plan.run := by
  induction plan with
  | done => exact value ()
  | lost h => exact enter.bind fun _ => value _
  | step h first second next firstIH secondIH nextIH =>
      exact (command le firstIH secondIH).bind fun _ => nextIH
  | script h body next bodyIH nextIH =>
      exact enter.bind fun _ => bodyIH.bind fun _ => nextIH
  | openScript h body ih =>
      exact enter.bind fun c => ih.bind fun _ => fail _

end

end Extends

end Run

namespace Session

variable {s : Session} {low high limit : Nat}

/-! ## Executions -/

theorem addSolvers_withPassLimit :
    (s.withPassLimit limit).addSolvers = s.addSolvers.withPassLimit limit := by
  have commutes := @List.foldl_hom Session Session (Text × Object) (withPassLimit · limit)
  refine commutes fun s (name, object) => ?_
  have types : (s.withPassLimit limit).options.solverTypes = s.options.solverTypes := rfl
  have solvers : (s.withPassLimit limit).solvers = s.solvers := rfl
  dsimp only
  rw [types, solvers]
  split <;> rfl

theorem unresolved?_withPassLimit (r : Resolution) (handles : List Handle) :
    (s.withPassLimit limit).unresolved? r handles = s.unresolved? r handles := by
  induction handles with
  | nil => rfl
  | cons h rest ih =>
      rw [unresolved?, unresolved?, ih]
      rfl

theorem extends_prepare : Run.Extends low high prepare prepare := by
  have added : ∀ s : Session, s.addSolvers.options.passLimit = s.options.passLimit := by
    intro s
    rw [addSolvers_eq]
  refine .bind (.change added fun _ => addSolvers_withPassLimit) fun _ => ?_
  refine .look fun s same uncut => ?_
  have objects : (s.withPassLimit high).objects = s.objects := rfl
  have types : (s.withPassLimit high).options.solverTypes = s.options.solverTypes := rfl
  have commands : (s.withPassLimit high).commands = s.commands := rfl
  rw [objects, types, commands, unresolved?_withPassLimit]
  cases s.unresolved? ⟨s.objects, s.options.solverTypes⟩ s.commands with
  | none => exact ⟨same, rfl⟩
  | some e => exact ⟨same, rfl⟩

theorem extends_execute (le : low ≤ high) : Run.Extends low high execute execute := by
  have reset : Run.Extends low high (modify ({ · with executed := 0, warnings := [] }))
      (modify ({ · with executed := 0, warnings := [] })) := .change (fun _ => rfl) fun _ => rfl
  have ran (plan : Plan) : Run.Extends low high (Run.andThen plan.run forgetResults)
      (Run.andThen plan.run forgetResults) := .andThen (.plan le plan) (fun _ => rfl) fun _ => rfl
  refine .look fun s => ?_
  have ready : (s.withPassLimit high).ready = s.ready := rfl
  rw [ready]
  split
  · refine Run.Extends.bind extends_prepare (fun _ => reset.bind fun _ => ?_) s
    refine .look fun s => (Run.Extends.bind (ran _) fun _ => ?_) s
    exact .look fun s limit _ => ⟨limit, rfl⟩
  · refine Run.Extends.bind reset (fun _ => ?_) s
    refine .look fun s => (Run.Extends.bind (ran _) fun _ => ?_) s
    exact .look fun s limit _ => ⟨limit, rfl⟩

/-- An execution in which no loop reaches the limit on its passes goes the same way under every larger
limit: it ends with the same report or the same error and leaves the same objects, solvers, warnings
and commands behind. -/
theorem execute_withPassLimit (le : s.options.passLimit ≤ limit) (uncut : Uncut (execute s).1) :
    execute (s.withPassLimit limit) = ((execute s).1, (execute s).2.withPassLimit limit) :=
  (extends_execute le s rfl uncut).same

/-- A solver loop that makes two passes, under the limits two and three. -/
theorem execute_withPassLimit_target :
    ∃ m, Mission.ofSource .builtin 0 "Create SQP A;\nTarget A\nStop;\nEndTarget;".toList = .ok m ∧
      Uncut (execute { mission := m, options := { passLimit := 2 } }).1 ∧
      execute { mission := m, options := { passLimit := 3 } } =
        ((execute { mission := m, options := { passLimit := 2 } }).1,
          (execute { mission := m, options := { passLimit := 2 } }).2.withPassLimit 3) := by
  have succeeds : ((Mission.ofSource .builtin 0
      "Create SQP A;\nTarget A\nStop;\nEndTarget;".toList).map fun m =>
        (execute { mission := m, options := { passLimit := 2 } }).1.isOk).toOption = some true := by
    decide +kernel
  cases accepted : Mission.ofSource .builtin 0
      "Create SQP A;\nTarget A\nStop;\nEndTarget;".toList with
  | error errors =>
      rw [accepted] at succeeds
      cases succeeds
  | ok m =>
      rw [accepted] at succeeds
      obtain ⟨report, done⟩ := Outcome.exists_of_isOk (Option.some.inj succeeds)
      have uncut : Uncut (execute { mission := m, options := { passLimit := 2 } }).1 := by
        rw [done]
        exact .ok report
      exact ⟨m, rfl, uncut, execute_withPassLimit (Nat.le_succ 2) uncut⟩

end Session

end MissionScript
