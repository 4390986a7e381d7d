import MissionScript.Proofs.Command.Value
import MissionScript.Proofs.Run.Direct
import MissionScript.Proofs.Step

/-!
# What can go wrong in a run

A program runs on a world that offers what its commands need: the objects that they name, and a solver
for every solver loop. Whatever the program does, the world keeps offering this, and an error is one of
those that only a run can show.
-/

namespace MissionScript

namespace RunError

/-- What can go wrong where all objects exist. A function call is no error, only a warning. -/
def isDynamic : RunError → Bool
  | value error => error.isDynamic
  | functionCall => false
  | outsideSolverLoop | otherSolver .. | noResult .. => true

end RunError

namespace SequenceError

/-- What can go wrong in a run whose references have been resolved. -/
def isDynamic : SequenceError → Bool
  | execution _ cause => cause.isDynamic
  | loopLimit .. => true
  | _ => false

end SequenceError

/-- The command does not write to a number. -/
def CommandBody.Writes : CommandBody → Prop
  | assignment target _ => target.isNumber = false
  | range r => r.index.isNumber = false
  | _ => True

namespace World

/-- What a command with this body needs is there. -/
def Offers (w : World) : CommandBody → Prop
  | .assignment target expression => w.objects.Knows target.names ∧ w.objects.Knows expression.names
  | .condition c => w.objects.Knows c.names
  | .range r => w.objects.Knows r.names
  | .solverLoop l => w.objects.contains l.solver ∧ w.solvers.contains l.solver
  | .objective o => w.objects.Knows o.operand.names
  | .constraint c => w.objects.Knows c.names
  | .structural | .call _ | .generic _ => True

/-- What all these commands need is there. -/
def Serves (commands : List Command) (w : World) : Prop := ∀ c ∈ commands, w.Offers c.body

/-- No object and no solver is missing that another world has. -/
structure Keeps (w next : World) : Prop where
  objects : w.objects.Keeps next.objects
  solvers : ∀ name, w.solvers.contains name → next.solvers.contains name

theorem Offers.keep {w next : World} {body : CommandBody} (offers : w.Offers body)
    (keeps : w.Keeps next) : next.Offers body := by
  have known {names : List Text} (knows : w.objects.Knows names) : next.objects.Knows names :=
    fun name member => keeps.objects name (knows name member)
  cases body with
  | assignment target expression => exact offers.imp known known
  | condition c => exact known offers
  | range r => exact known offers
  | solverLoop l => exact offers.imp (keeps.objects _) (keeps.solvers _)
  | objective o => exact known offers
  | constraint c => exact known offers
  | structural => exact offers
  | call c => exact offers
  | generic arguments => exact offers

theorem Serves.keep {w next : World} {commands : List Command} (serves : w.Serves commands)
    (keeps : w.Keeps next) : next.Serves commands := fun c member => (serves c member).keep keeps

end World

/-! ## Reports -/

theorem ResultState.report_dynamic {state : ResultState} {owner name : Text} {kind : ResultKind}
    {value : Except ValueError Float} {solver : DryRun}
    (only : Outcome.Only (·.isDynamic) value) :
    Outcome.Only (·.isDynamic) (state.report owner kind name value solver) := by
  unfold report
  split
  · exact .error rfl
  · split
    · exact .ok _
    · split
      · rename_i cause
        exact .error (only cause rfl)
      · split
        · exact .error rfl
        · exact .ok _

theorem CommandBody.report_dynamic {body : CommandBody} {w : World} {solver : DryRun}
    {state : ResultState} (offers : w.Offers body) :
    Outcome.Only (·.isDynamic) ((body.withState state).report w.objects solver) := by
  cases body with
  | objective o =>
      have value := Operand.value_dynamic offers
      exact .map (.bind (ResultState.report_dynamic value) fun _ _ => .ok _)
  | constraint c =>
      have value := Constraint.value_dynamic offers
      exact .map (.bind (ResultState.report_dynamic value) fun _ _ => .ok _)
  | structural => exact .ok _
  | assignment target expression => exact .ok _
  | call c => exact .ok _
  | condition c => exact .ok _
  | range r => exact .ok _
  | solverLoop l => exact .ok _
  | generic arguments => exact .ok _

/-- A report over known objects. -/
theorem Command.report_dynamic {c : Command} {w : World} {solver : DryRun} {state : ResultState}
    (offers : w.Offers c.body) :
    Outcome.Only (·.isDynamic) ((c.withState state).report w.objects solver) := by
  have only : Outcome.Only (·.isDynamic) ((c.body.withState state).report w.objects solver) :=
    CommandBody.report_dynamic offers
  intro e failed
  unfold report at failed
  split at failed
  · cases failed
  · rename_i cause reports
    cases failed
    exact only cause reports

namespace Direct

variable {t : Terms} {commands : List Command} {α β σ : Type}

/-- How a step may end: the world still serves the commands, and an error is a dynamic one. -/
def Settled (commands : List Command) (x : Except Diagnostic α × World) : Prop :=
  x.2.Serves commands ∧ Outcome.Only (·.error.isDynamic) x.1

/-- A step that ends so from every world that serves the commands. -/
def Safe (commands : List Command) (step : Direct α) : Prop :=
  ∀ w, w.Serves commands → Settled commands (step w)

theorem error_locate (error : SequenceError) (span : Option Span) (source : Nat) :
    (Diagnostic.locate error span source).error = error := by
  cases span <;> rfl

namespace Safe

variable {c : Command} {step : Direct α} {f : α → Direct β}

theorem value (value : α) : Safe commands (pure value) :=
  fun _ serves => ⟨serves, .ok _⟩

theorem bind (first : Safe commands step) (rest : ∀ value, Safe commands (f value)) :
    Safe commands (step >>= f) := by
  intro w serves
  obtain ⟨still, only⟩ := first w serves
  cases ran : step w with
  | mk outcome after =>
      rw [ran] at still only
      cases outcome with
      | error error =>
          rw [Step.bind_error ran]
          exact ⟨still, .error (only error rfl)⟩
      | ok value =>
          rw [Step.bind_ok ran]
          exact rest value after still

/-- A step may look at the world. -/
theorem look {f : World → Direct β} (each : ∀ w, w.Serves commands → Settled commands (f w w)) :
    Safe commands (get >>= f) :=
  each

theorem change {f : World → World} (each : ∀ w : World, w.Keeps (f w)) : Safe commands (modify f) :=
  fun w serves => ⟨serves.keep (each w), .ok _⟩

theorem fail {error : SequenceError} (dynamic : error.isDynamic) :
    Safe commands (Direct.fail t c error : Direct α) := by
  intro w serves
  refine ⟨serves, .error ?_⟩
  rw [error_locate]
  exact dynamic

/-- A step that cannot find a value. -/
theorem refuse {cause : ValueError} (dynamic : cause.isDynamic) {w : World}
    (serves : w.Serves commands) (next : α → Direct β) :
    Settled commands ((Direct.require t c (.error cause) >>= next) w) := by
  have failed : (Direct.require t c (.error cause) : Direct α) w =
      (.error (.locate (.execution c.subject (.value cause)) c.span t.source), w) := rfl
  rw [Step.bind_error failed]
  refine ⟨serves, .error ?_⟩
  rw [error_locate]
  exact dynamic

theorem require {x : Except ValueError α} (only : Outcome.Only (·.isDynamic) x) :
    Safe commands (Direct.require t c x) := by
  cases x with
  | error cause => exact fail (only cause rfl)
  | ok value => exact .value value

theorem andThen {after : World → World} (steps : Safe commands step)
    (each : ∀ w : World, w.Keeps (after w)) : Safe commands (Direct.andThen step after) := by
  intro w serves
  obtain ⟨still, only⟩ := steps w serves
  exact ⟨still.keep (each _), only⟩

theorem count : Safe commands Direct.count :=
  change fun w => ⟨.refl w.objects, fun _ held => held⟩

/-! ## Commands -/

theorem keeps_insert (w : World) (name : Text) (solver : DryRun) :
    w.Keeps { w with solvers := w.solvers.insert name solver } :=
  ⟨.refl _, fun _ held => Table.contains_insert_of_contains held⟩

/-- Objects that replace others and miss none of them. -/
theorem withObjects {w : World} {objects : Store} (serves : w.Serves commands)
    (keeps : w.objects.Keeps objects) :
    Settled commands ((modify ({ · with objects }) : Direct Unit) w) :=
  ⟨serves.keep ⟨keeps, fun _ held => held⟩, .ok _⟩

section

variable (member : c ∈ commands)

include member

theorem assign (writes : c.body.Writes) : Safe commands (Direct.assign t c) := by
  unfold Direct.assign
  split
  · rename_i target expression body
    refine look fun w serves => ?_
    have offers := serves c member
    rw [body] at offers writes
    cases written : expression.assignTo w.objects target with
    | error cause =>
        have only : cause.isDynamic :=
          Expression.assignTo_dynamic offers.2 offers.1 writes cause written
        exact refuse only serves _
    | ok result =>
        obtain ⟨new, objects⟩ := result
        exact withObjects serves (Expression.sameTypes_assignTo written).keeps
  · exact value _

theorem test : Safe commands (Direct.test t c) := by
  unfold Direct.test
  split
  · rename_i condition body
    refine look fun w serves => ?_
    have offers := serves c member
    rw [body] at offers
    exact require (Condition.value_dynamic offers) w serves
  · exact value _

theorem report (position : Nat) : Safe commands (Direct.report t position c) := by
  unfold Direct.report
  refine look fun w serves => ?_
  cases w.active.head?.bind fun name => (w.solvers.get? name).map fun solver => (name, solver) with
  | none => exact (fail rfl : Safe commands (Direct.fail t c _ : Direct Unit)) w serves
  | some entry =>
      obtain ⟨name, solver⟩ := entry
      dsimp only
      cases reports : (c.withState (w.results position)).report w.objects solver with
      | error e =>
          have only : e.isDynamic := Command.report_dynamic (serves c member) e reports
          exact (fail only : Safe commands (Direct.fail t c _ : Direct Unit)) w serves
      | ok result => exact ⟨serves.keep ⟨.refl _, (keeps_insert w name result.2).solvers⟩, .ok _⟩

end

theorem skipCall : Safe commands (Direct.skipCall t c) :=
  change fun w => ⟨.refl w.objects, fun _ held => held⟩

theorem plain (member : c ∈ commands) (writes : c.body.Writes) (position : Nat) :
    Safe commands (Direct.plain t position c) := by
  refine count.bind fun _ => ?_
  split
  · exact assign member writes
  · exact skipCall
  · exact report member position
  · exact report member position
  · exact value _

/-! ## Blocks -/

theorem passes {again : σ → Direct Bool} {pass : σ → Direct (Option σ)}
    (tests : ∀ state, Safe commands (again state)) (steps : ∀ state, Safe commands (pass state))
    (remaining : Nat) (start : σ) :
    Safe commands (Direct.passes t c again pass remaining start) := by
  induction remaining generalizing start with
  | zero =>
      unfold Direct.passes
      refine (tests start).bind fun goes => ?_
      split
      · exact fail rfl
      · exact value _
  | succ remaining ih =>
      unfold Direct.passes
      refine (tests start).bind fun goes => ?_
      split
      · refine (steps start).bind fun next => ?_
        cases next with
        | none => exact value _
        | some state => exact ih state
      · exact value _

variable {body first second : Direct Unit}

section

variable (member : c ∈ commands) (inside : Safe commands body)

include member inside

theorem whileLoop : Safe commands (Direct.whileLoop t c body) :=
  passes (fun _ => test member) (fun _ => inside.bind fun _ => value _) _ _

theorem forLoop (writes : c.body.Writes) : Safe commands (Direct.forLoop t c body) := by
  unfold Direct.forLoop
  split
  · rename_i range body
    have offers {w : World} (serves : w.Serves commands) : w.objects.Knows range.names := by
      have own := serves c member
      rwa [body] at own
    rw [body] at writes
    refine look fun w serves => ?_
    refine (require (LoopRange.bounds_dynamic (offers serves))).bind (fun bounds => ?_) w serves
    refine passes (fun _ => value _) (fun number => look fun w serves => ?_) _ _
    have index : w.objects.Knows range.index.names := fun name member =>
      offers serves name (LoopRange.mem_names.mpr (.inl member))
    cases written : range.index.assign w.objects number with
    | error cause =>
        have only : cause.isDynamic := Operand.assign_dynamic index writes number cause written
        exact refuse only serves _
    | ok objects =>
        have keeps := (Operand.sameTypes_assign written).keeps
        exact inside.bind (fun _ => value _) _ (withObjects serves keeps).1
  · exact value _

theorem solverLoop (position size : Nat) :
    Safe commands (Direct.solverLoop t position size c body) := by
  unfold Direct.solverLoop
  split
  · rename_i l body
    have started : Safe commands (Direct.startSolver t c l.solver) := by
      refine look fun w serves => ?_
      have offers := serves c member
      rw [body] at offers
      obtain ⟨object, held⟩ := Table.contains_iff.mp offers.1
      obtain ⟨solver, running⟩ := Table.contains_iff.mp offers.2
      rw [held, running]
      exact ⟨serves.keep ⟨.refl _, (keeps_insert w l.solver _).solvers⟩, .ok _⟩
    have advanced : Safe commands (Direct.advance l.solver) := by
      refine look fun w serves => ?_
      cases w.solvers.get? l.solver with
      | none => exact ⟨serves, .ok _⟩
      | some held => exact ⟨serves.keep (keeps_insert w l.solver held.advance), .ok _⟩
    refine started.bind fun _ => ?_
    refine Safe.andThen (passes (fun _ => value _) (fun _ => inside.bind fun _ => ?_) _ _)
      fun w => ⟨.refl w.objects, fun _ held => held⟩
    split
    · exact value _
    · exact advanced.bind fun _ => value _
  · exact value _

theorem block (writes : c.body.Writes) (position size : Nat) :
    Safe commands (Direct.block t position size c body) := by
  refine count.bind fun _ => ?_
  split
  · refine (test member).bind fun holds => ?_
    split
    · exact inside
    · exact value _
  · exact whileLoop member inside
  · exact forLoop member inside writes
  · exact solverLoop member inside position size
  · exact solverLoop member inside position size
  · exact value _

end

theorem choice (member : c ∈ commands) (inFirst : Safe commands first)
    (inSecond : Safe commands second) : Safe commands (Direct.choice t c first second) := by
  refine count.bind fun _ => ?_
  refine (test member).bind fun holds => ?_
  split
  · exact inFirst
  · exact inSecond

end Safe

end Direct

/-- A program runs safely where its commands are served. -/
theorem Program.safe {t : Terms} {commands : List Command} (writes : ∀ c ∈ commands, c.body.Writes)
    (program : Program) (position : Nat) (inside : program.commands ⊆ commands) :
    Direct.Safe commands (program.run t position) := by
  induction program generalizing position with
  | done => exact .value _
  | plain c isPlain next ih =>
      obtain ⟨own, behind⟩ := List.cons_subset.mp inside
      exact (Direct.Safe.plain own (writes c own) position).bind fun _ => ih _ behind
  | script opener opens body closer closes next bodyIH nextIH =>
      obtain ⟨own, rest⟩ := List.cons_subset.mp inside
      obtain ⟨ofBody, behind⟩ := List.append_subset.mp rest
      refine .bind .count fun _ => ?_
      exact (bodyIH _ ofBody).bind fun _ => nextIH _ (List.cons_subset.mp behind).2
  | block opener body closer ends next bodyIH nextIH =>
      obtain ⟨own, rest⟩ := List.cons_subset.mp inside
      obtain ⟨ofBody, behind⟩ := List.append_subset.mp rest
      have ended := (bodyIH (position + 1) ofBody).bind fun _ => .count
      exact (Direct.Safe.block own ended (writes opener own) _ _).bind fun _ =>
        nextIH _ (List.cons_subset.mp behind).2
  | choice opener opens first alternative turns second closer closes next firstIH secondIH nextIH =>
      obtain ⟨own, rest⟩ := List.cons_subset.mp inside
      obtain ⟨ofFirst, rest⟩ := List.append_subset.mp rest
      obtain ⟨ofSecond, behind⟩ := List.append_subset.mp (List.cons_subset.mp rest).2
      refine (Direct.Safe.choice own ((firstIH _ ofFirst).bind fun _ => .count)
        ((secondIH _ ofSecond).bind fun _ => .count)).bind fun _ => ?_
      exact nextIH _ (List.cons_subset.mp behind).2

end MissionScript
