import Mathlib.Data.List.ReduceOption
import MissionScript.Proofs.Run.Observed
import MissionScript.Proofs.Run.Recording

/-!
# Confined steps

A world is orderly if every number that a command keeps stands for the result of the command, and if
only commands whose solver is running keep one. A step that starts no running solver keeps a world
orderly and changes the numbers of its own commands only, so that looking at the numbers on the way
makes no difference.
-/

namespace MissionScript

namespace Arena

/-- The commands stand in a row from a position on. -/
def Places (a : Arena) : (position : Nat) → List Command → Prop
  | _, [] => True
  | position, c :: commands =>
    a.command? (.ofIndex position) = some c ∧ a.Places (position + 1) commands

variable {a : Arena}

theorem places_append_iff {first second : List Command} {position : Nat} :
    a.Places position (first ++ second) ↔
      a.Places position first ∧ a.Places (position + first.length) second := by
  induction first generalizing position with
  | nil => simp [Places]
  | cons c first ih =>
      rw [List.cons_append, Places, Places, ih, List.length_cons, and_assoc, Nat.add_assoc,
        Nat.add_comm 1]

theorem Drawn.places {stop previous : Option Handle} {base : Nat} {l : Layout}
    (drawn : a.Drawn stop base previous l) : a.Places base l.commands := by
  induction l generalizing stop base previous with
  | done => trivial
  | step command first second next firstIH secondIH nextIH =>
      obtain ⟨node, -, inFirst, inSecond, after⟩ := drawn
      refine ⟨by rw [command?, node]; rfl, ?_⟩
      rw [places_append_iff, places_append_iff, Layout.length_commands, Layout.length_commands]
      exact ⟨firstIH inFirst, secondIH inSecond, nextIH after⟩

end Arena

namespace World

variable {a : Arena} {w next last : World} {low high : Nat}

/-- The command at a position keeps a number. -/
structure Numbers (a : Arena) (w : World) (position : Nat) (owner : Text) (kind : ResultKind)
    (name : Text) (id : Nat) : Prop where
  command : ∃ c, a.command? (.ofIndex position) = some c ∧
    c.body.result? = some (owner, kind, name)
  number : (w.results position).id? = some id

structure Orderly (a : Arena) (w : World) : Prop where
  /-- Solvers are held under their names. -/
  named : ∀ name solver, w.solvers.get? name = some solver → solver.name = name
  /-- A number stands for the result of its command. -/
  recorded : ∀ {position owner kind name id}, w.Numbers a position owner kind name id →
    ∃ solver, w.solvers.get? owner = some solver ∧ solver.holds id kind name
  /-- Only commands of running solvers have numbers. -/
  running : ∀ {position owner kind name id}, w.Numbers a position owner kind name id →
    owner ∈ w.active

/-- What a step from one orderly world to another leaves alone: which solvers are running, and the
numbers of all commands outside its range. -/
structure Within (a : Arena) (low high : Nat) (w next : World) : Prop where
  orderly : next.Orderly a
  active : next.active = w.active
  outside : ∀ position, ¬ (low ≤ position ∧ position < high) →
    next.results position = w.results position

theorem Within.refl (orderly : w.Orderly a) : w.Within a low high w := ⟨orderly, rfl, fun _ _ => rfl⟩

theorem Within.trans (first : w.Within a low high next) (second : next.Within a low high last) :
    w.Within a low high last where
  orderly := second.orderly
  active := second.active.trans first.active
  outside position away := (second.outside position away).trans (first.outside position away)

theorem Within.mono {low' high' : Nat} (within : w.Within a low high next) (below : low' ≤ low)
    (above : high ≤ high') : w.Within a low' high' next where
  orderly := within.orderly
  active := within.active
  outside position away := within.outside position (by omega)

/-- Another solver in the place of one with the same name, which holds the same results. -/
theorem Orderly.withSolver (orderly : w.Orderly a) {name : Text} {solver after : DryRun}
    (held : w.solvers.get? name = some solver) (same : after.name = solver.name)
    (kept : ∀ id kind result, solver.holds id kind result → after.holds id kind result) :
    ({ w with solvers := w.solvers.insert name after } : World).Orderly a where
  named := Table.forall_insert orderly.named (same.trans (orderly.named name solver held))
  recorded {position owner kind result id} numbers := by
    obtain ⟨found, got, holds⟩ := orderly.recorded ⟨numbers.command, numbers.number⟩
    by_cases here : owner = name
    · rw [here, held] at got
      cases got
      exact ⟨after, by rw [Table.get?_insert, if_pos here], kept id kind result holds⟩
    · exact ⟨found, by rw [Table.get?_insert, if_neg here, got], holds⟩
  running numbers := orderly.running ⟨numbers.command, numbers.number⟩

/-- Another state of one command. A number in it has to stand for the result of the command. -/
theorem Orderly.withResult (orderly : w.Orderly a) {position : Nat} {state : ResultState}
    (own : ∀ c owner kind name id, a.command? (.ofIndex position) = some c →
      c.body.result? = some (owner, kind, name) → state.id? = some id → owner ∈ w.active ∧
        ∃ solver, w.solvers.get? owner = some solver ∧ solver.holds id kind name) :
    ({ w with results := fun other => if other = position then state else w.results other } :
      World).Orderly a := by
  have elsewhere {other owner kind name id} (away : other ≠ position)
      (numbers : ({ w with results := fun other =>
        if other = position then state else w.results other } : World).Numbers a other owner kind
          name id) : w.Numbers a other owner kind name id := by
    have number := numbers.number
    dsimp only at number
    rw [if_neg away] at number
    exact ⟨numbers.command, number⟩
  have here {owner kind name id}
      (numbers : ({ w with results := fun other =>
        if other = position then state else w.results other } : World).Numbers a position owner kind
          name id) : owner ∈ w.active ∧
        ∃ solver, w.solvers.get? owner = some solver ∧ solver.holds id kind name := by
    obtain ⟨c, found, result⟩ := numbers.command
    have number := numbers.number
    dsimp only at number
    rw [if_pos rfl] at number
    exact own c owner kind name id found result number
  refine ⟨orderly.named, fun {other _ _ _ _} numbers => ?_, fun {other _ _ _ _} numbers => ?_⟩
  · by_cases same : other = position
    · subst same
      exact (here numbers).2
    · exact orderly.recorded (elsewhere same numbers)
  · by_cases same : other = position
    · subst same
      exact (here numbers).1
    · exact orderly.running (elsewhere same numbers)

end World

namespace Direct

variable {a : Arena} {t : Terms} {active : List Text} {low high : Nat} {α β σ : Type}

/-- How a confined step may end. No solver lacks a result that is reported to it. -/
structure Tame (a : Arena) (low high : Nat) (w : World) (x : Except Diagnostic α × World) : Prop where
  within : w.Within a low high x.2
  finds : Outcome.Only (·.error.lacksResult = false) x.1

/-- While these solvers are running, the step is confined to a range of positions, and it does the same
when it is watched. -/
def Confined (a : Arena) (active : List Text) (low high : Nat) (watched step : Direct α) : Prop :=
  ∀ w : World, w.Orderly a → w.active = active → watched w = step w ∧ Tame a low high w (step w)

namespace Confined

variable {c : Command} {watched step : Direct α} {f g : α → Direct β}

theorem mono {low' high' : Nat} (confined : Confined a active low high watched step)
    (below : low' ≤ low) (above : high ≤ high') : Confined a active low' high' watched step := by
  intro w orderly running
  obtain ⟨same, tame⟩ := confined w orderly running
  exact ⟨same, tame.within.mono below above, tame.finds⟩

theorem value (value : α) : Confined a active low high (pure value) (pure value) :=
  fun _ orderly _ => ⟨rfl, .refl orderly, .ok _⟩

theorem bind (first : Confined a active low high watched step)
    (rest : ∀ value, Confined a active low high (f value) (g value)) :
    Confined a active low high (watched >>= f) (step >>= g) := by
  intro w orderly running
  obtain ⟨same, within, finds⟩ := first w orderly running
  cases ran : step w with
  | mk outcome after =>
      rw [ran] at same within finds
      cases outcome with
      | error error =>
          rw [Step.bind_error same, Step.bind_error ran]
          exact ⟨rfl, within, .error (finds error rfl)⟩
      | ok value =>
          rw [Step.bind_ok same, Step.bind_ok ran]
          obtain ⟨same, tame⟩ := rest value after within.orderly (within.active.trans running)
          exact ⟨same, within.trans tame.within, tame.finds⟩

/-- Both sides may look at the world. -/
theorem look {f g : World → Direct β}
    (each : ∀ w : World, w.Orderly a → w.active = active →
      f w w = g w w ∧ Tame a low high w (g w w)) :
    Confined a active low high (get >>= f) (get >>= g) :=
  each

/-- A watch that lets orderly worlds pass. -/
theorem watch {guard : Direct Unit} (quiet : ∀ w : World, w.Orderly a → guard w = (.ok (), w))
    (confined : Confined a active low high watched step) :
    Confined a active low high (guard >>= fun _ => watched) step := by
  intro w orderly running
  rw [Step.bind_ok (quiet w orderly)]
  exact confined w orderly running

/-- A change that touches neither solvers nor numbers. -/
theorem change {f : World → World} (solvers : ∀ w, (f w).solvers = w.solvers)
    (running : ∀ w, (f w).active = w.active) (results : ∀ w, (f w).results = w.results) :
    Confined a active low high (modify f) (modify f) := by
  intro w orderly _
  refine ⟨rfl, ⟨?_, running w, fun position _ => congrFun (results w) position⟩, .ok _⟩
  have numbers {position owner kind name id} (now : (f w).Numbers a position owner kind name id) :
      w.Numbers a position owner kind name id := ⟨now.command, by rw [← results w]; exact now.number⟩
  constructor
  · rw [Step.modify_apply, solvers]
    exact orderly.named
  · intro _ _ _ _ _ now
    rw [Step.modify_apply, solvers]
    exact orderly.recorded (numbers now)
  · intro _ _ _ _ _ now
    rw [Step.modify_apply, running]
    exact orderly.running (numbers now)

theorem fail {error : SequenceError} (finds : error.lacksResult = false) :
    Confined a active low high (Direct.fail t c error : Direct α) (Direct.fail t c error) := by
  intro w orderly _
  refine ⟨rfl, .refl orderly, .error ?_⟩
  rw [error_locate]
  exact finds

theorem require (x : Except ValueError α) :
    Confined a active low high (Direct.require t c x) (Direct.require t c x) := by
  cases x with
  | error cause => exact fail rfl
  | ok value => exact .value value

theorem count : Confined a active low high Direct.count Direct.count :=
  change (fun _ => rfl) (fun _ => rfl) fun _ => rfl

theorem withObjects (objects : Store) :
    Confined a active low high (modify ({ · with objects }) : Direct Unit)
      (modify ({ · with objects })) :=
  change (fun _ => rfl) (fun _ => rfl) fun _ => rfl

theorem assign : Confined a active low high (Direct.assign t c) (Direct.assign t c) := by
  unfold Direct.assign
  split
  · exact look fun w orderly running =>
      bind (require _) (fun (_, objects) => withObjects objects) w orderly running
  · exact value _

theorem test : Confined a active low high (Direct.test t c) (Direct.test t c) := by
  unfold Direct.test
  split
  · exact look fun w orderly running => require _ w orderly running
  · exact value _

theorem skipCall : Confined a active low high (Direct.skipCall t c) (Direct.skipCall t c) :=
  change (fun _ => rfl) (fun _ => rfl) fun _ => rfl

/-! ## Reports -/

/-- A report to the innermost solver that leaves its command with a number for its result. -/
theorem reported {position : Nat} {w : World} {name : Text} {solver after : DryRun}
    {state : ResultState} (orderly : w.Orderly a) (held : w.solvers.get? name = some solver)
    (innermost : name ∈ w.active) (same : after.name = solver.name)
    (kept : ∀ id kind result, solver.holds id kind result → after.holds id kind result)
    (own : ∀ c owner kind title id, a.command? (.ofIndex position) = some c →
      c.body.result? = some (owner, kind, title) → state.id? = some id →
        owner = name ∧ after.holds id kind title)
    (below : low ≤ position) (above : position < high) :
    Tame a low high w ((Except.ok () : Except Diagnostic Unit), { w with
      results := fun other => if other = position then state else w.results other
      solvers := w.solvers.insert name after }) := by
  refine ⟨⟨?_, rfl, fun other away => ?_⟩, .ok _⟩
  · refine (orderly.withSolver held same kept).withResult fun c owner kind title id found result
      number => ?_
    obtain ⟨rfl, holds⟩ := own c owner kind title id found result number
    exact ⟨innermost, after, by rw [Table.get?_insert, if_pos rfl], holds⟩
  · exact if_neg fun same => away (by rw [same]; exact ⟨below, above⟩)

/-- The number of a command that reports stands for its result. -/
theorem report {position : Nat} (found : a.command? (.ofIndex position) = some c)
    (below : low ≤ position) (above : position < high) :
    Confined a active low high (Direct.report t position c) (Direct.report t position c) := by
  unfold Direct.report
  refine look fun w orderly running => ?_
  cases inner : w.active.head?.bind fun name => (w.solvers.get? name).map fun s => (name, s) with
  | none => exact fail rfl w orderly running
  | some entry =>
      obtain ⟨name, solver⟩ := entry
      obtain ⟨_, head, same⟩ := Option.bind_eq_some_iff.mp inner
      obtain ⟨_, held, same⟩ := Option.map_eq_some_iff.mp same
      cases same
      have innermost : name ∈ w.active := List.mem_of_mem_head? head
      have named := orderly.named name solver held
      dsimp only
      cases result : c.body.result? with
      | none =>
          have bare : c.withState (w.results position) = c :=
            Command.withState_of_none (CommandBody.resultState?_of_result? result)
          rw [bare, Command.report_of_no_result result]
          refine ⟨rfl, reported orderly held innermost rfl (fun _ _ _ holds => holds) ?_ below above⟩
          intro other owner kind title id found' result'
          rw [found] at found'
          cases found'
          rw [result] at result'
          cases result'
      | some triple =>
          obtain ⟨owner, kind, title⟩ := triple
          obtain ⟨value, -, reports⟩ :=
            Command.exists_report_eq result (w.results position) w.objects solver
          have own : owner = solver.name → ∀ id, (w.results position).id? = some id →
              solver.holds id kind title := by
            intro same id number
            obtain ⟨other, got, holds⟩ := orderly.recorded ⟨⟨c, found, result⟩, number⟩
            rw [same, named, held] at got
            cases got
            exact holds
          rw [reports]
          cases ran : (w.results position).report owner kind title value solver with
          | error cause =>
              have finds : (SequenceError.execution c.subject cause).lacksResult = false :=
                ResultState.report_finds own cause ran
              exact fail finds w orderly running
          | ok pair =>
              obtain ⟨state, after⟩ := pair
              have kept : after.name = solver.name := ResultState.name_of_report ran
              obtain ⟨same, ⟨id, number, holds⟩, others⟩ := ResultState.report_holds own ran
              dsimp only
              have now : (c.withState state).body.resultState? = some state :=
                CommandBody.resultState?_withState result
              rw [now]
              refine ⟨rfl, reported orderly held innermost kept others ?_ below above⟩
              intro other owner' kind' title' id' found' result' number'
              rw [found] at found'
              cases found'
              rw [result] at result'
              cases result'
              rw [Option.getD_some, number] at number'
              cases number'
              exact ⟨same.trans named, holds⟩

theorem plain {position : Nat} (found : a.command? (.ofIndex position) = some c)
    (below : low ≤ position) (above : position < high) :
    Confined a active low high (Direct.plain t position c) (Direct.plain t position c) := by
  refine count.bind fun _ => ?_
  split
  · exact assign
  · exact skipCall
  · exact report found below above
  · exact report found below above
  · exact value _

/-! ## Blocks -/

theorem passes {again : σ → Direct Bool} {watchedPass pass : σ → Direct (Option σ)}
    (tests : ∀ state, Confined a active low high (again state) (again state))
    (steps : ∀ state, Confined a active low high (watchedPass state) (pass state))
    (remaining : Nat) (start : σ) :
    Confined a active low high (Direct.passes t c again watchedPass remaining start)
      (Direct.passes t c again pass remaining start) := by
  induction remaining generalizing start with
  | zero =>
      unfold Direct.passes
      refine (tests start).bind fun goes => ?_
      split
      · exact fail rfl
      · exact value _
  | succ remaining ih =>
      unfold Direct.passes
      refine (tests start).bind fun goes => ?_
      split
      · refine (steps start).bind fun next => ?_
        cases next with
        | none => exact value _
        | some state => exact ih state
      · exact value _

variable {watchedBody body watchedSecond second : Direct Unit}

theorem whileLoop (inside : Confined a active low high watchedBody body) :
    Confined a active low high (Direct.whileLoop t c watchedBody) (Direct.whileLoop t c body) :=
  passes (fun _ => test) (fun _ => inside.bind fun _ => value _) _ _

theorem forLoop (inside : Confined a active low high watchedBody body) :
    Confined a active low high (Direct.forLoop t c watchedBody) (Direct.forLoop t c body) := by
  unfold Direct.forLoop
  split
  · refine look fun w orderly running => ?_
    refine bind (require _) (fun bounds => ?_) w orderly running
    refine passes (fun _ => value _) (fun number => look fun w orderly running => ?_) _ _
    refine bind (require _) (fun objects => ?_) w orderly running
    exact (withObjects objects).bind fun _ => inside.bind fun _ => value _
  · exact value _

theorem advance (solver : Text) :
    Confined a active low high (Direct.advance solver) (Direct.advance solver) := by
  refine look fun w orderly running => ?_
  cases held : w.solvers.get? solver with
  | none => exact ⟨rfl, .refl orderly, .ok _⟩
  | some found =>
      exact ⟨rfl, ⟨orderly.withSolver held rfl fun _ _ _ holds => holds, rfl, fun _ _ => rfl⟩, .ok _⟩

/-- A solver that is not running has no numbers to forget when it is started. -/
theorem orderly_start {w : World} (orderly : w.Orderly a) {name : Text} {solver : DryRun}
    (held : w.solvers.get? name = some solver) (idle : name ∉ w.active) (limit : Option Float) :
    ({ w with
      solvers := w.solvers.insert name (solver.start limit)
      active := name :: w.active } : World).Orderly a where
  named := Table.forall_insert orderly.named (orderly.named name solver held)
  recorded {position owner kind title id} numbers := by
    have before : w.Numbers a position owner kind title id := ⟨numbers.command, numbers.number⟩
    obtain ⟨found, got, holds⟩ := orderly.recorded before
    have other : owner ≠ name := fun same => idle (same ▸ orderly.running before)
    exact ⟨found, by rw [Table.get?_insert, if_neg other, got], holds⟩
  running numbers := List.mem_cons_of_mem _ (orderly.running ⟨numbers.command, numbers.number⟩)

/-- When a loop is left, only commands outside of it have numbers, which they have had before. -/
theorem within_leave {w after : World} {name : Text} {position size : Nat} (orderly : w.Orderly a)
    (still : after.Orderly a) (running : after.active = name :: w.active)
    (outside : ∀ other, ¬ (position ≤ other ∧ other < position + size) →
      after.results other = w.results other) :
    w.Within a position (position + size) (Direct.leave position size after) := by
  have away {other owner kind title id}
      (numbers : (Direct.leave position size after).Numbers a other owner kind title id) :
      ¬ (position ≤ other ∧ other < position + size) ∧
        after.Numbers a other owner kind title id := by
    have number := numbers.number
    dsimp only [Direct.leave] at number
    split at number
    · cases number
    · rename_i beyond
      exact ⟨beyond, numbers.command, number⟩
  refine ⟨⟨still.named, fun numbers => still.recorded (away numbers).2, fun numbers => ?_⟩, ?_, ?_⟩
  · obtain ⟨beyond, later⟩ := away numbers
    have left : (Direct.leave position size after).active = w.active := congrArg List.tail running
    rw [left]
    exact orderly.running ⟨later.command, outside _ beyond ▸ later.number⟩
  · exact congrArg List.tail running
  · exact fun other beyond => (if_neg beyond).trans (outside other beyond)

/-- Starting a solver fails, or there is a solver that is started. -/
theorem startSolver_cases (c : Command) (name : Text) (w : World) :
    Direct.startSolver t c name w =
        (Direct.fail t c (.unresolvedReference c.subject (.noSolver name)) : Direct Unit) w ∨
      ∃ solver limit, w.solvers.get? name = some solver ∧
        Direct.startSolver t c name w = (.ok (), { w with
          solvers := w.solvers.insert name (solver.start limit)
          active := name :: w.active }) := by
  unfold Direct.startSolver
  rw [Step.get_bind]
  cases w.objects.get? name with
  | none => exact .inl rfl
  | some object =>
      cases w.solvers.get? name with
      | none => exact .inl rfl
      | some solver => exact .inr ⟨solver, object.parameter? maximumIterations, rfl, rfl⟩

/-- A solver that is not running is started, does something and is left. -/
theorem started {name : Text} {position size : Nat} (idle : name ∉ active)
    (inside : Confined a (name :: active) position (position + size) watchedBody body) :
    Confined a active position (position + size)
      (Direct.startSolver t c name >>= fun _ =>
        Direct.andThen watchedBody (Direct.leave position size))
      (Direct.startSolver t c name >>= fun _ =>
        Direct.andThen body (Direct.leave position size)) := by
  intro w orderly running
  rcases startSolver_cases (t := t) c name w with failed | ⟨solver, limit, held, started⟩
  · have refused : Tame a position (position + size) w
        ((Direct.fail t c (.unresolvedReference c.subject (.noSolver name)) : Direct Unit) w) :=
      (fail rfl w orderly running).2
    rw [Step.bind_error failed, Step.bind_error failed]
    exact ⟨rfl, refused.within, .error (refused.finds _ rfl)⟩
  · rw [Step.bind_ok started, Step.bind_ok started]
    obtain ⟨same, within, finds⟩ := inside _ (orderly_start orderly held (running ▸ idle) limit)
      (by rw [running])
    refine ⟨by rw [Direct.andThen, Direct.andThen, same], ?_, finds⟩
    exact within_leave orderly within.orderly within.active within.outside

/-- A loop on a solver that is not running. -/
theorem solverLoop {position size : Nat}
    (idle : ∀ l, c.body = .solverLoop l → l.solver ∉ active)
    (inside : ∀ l, c.body = .solverLoop l →
      Confined a (l.solver :: active) position (position + size) watchedBody body) :
    Confined a active position (position + size)
      (Direct.solverLoop t position size c watchedBody)
      (Direct.solverLoop t position size c body) := by
  unfold Direct.solverLoop
  split
  · rename_i l bodyOf
    refine started (idle l bodyOf) (passes (fun _ => value _) (fun _ => ?_) _ _)
    refine (inside l bodyOf).bind fun _ => ?_
    split
    · exact value _
    · exact (advance _).bind fun _ => value _
  · exact value _

theorem block {position size : Nat}
    (idle : ∀ l, c.body = .solverLoop l → l.solver ∉ active)
    (inside : Confined a active position (position + size) watchedBody body)
    (within : ∀ l, c.body = .solverLoop l →
      Confined a (l.solver :: active) position (position + size) watchedBody body) :
    Confined a active position (position + size) (Direct.block t position size c watchedBody)
      (Direct.block t position size c body) := by
  refine count.bind fun _ => ?_
  split
  · refine test.bind fun holds => ?_
    split
    · exact inside
    · exact value _
  · exact whileLoop inside
  · exact forLoop inside
  · exact solverLoop idle within
  · exact solverLoop idle within
  · exact value _

theorem choice (first : Confined a active low high watchedBody body)
    (inSecond : Confined a active low high watchedSecond second) :
    Confined a active low high (Direct.choice t c watchedBody watchedSecond)
      (Direct.choice t c body second) := by
  refine count.bind fun _ => test.bind fun holds => ?_
  split
  · exact first
  · exact inSecond

end Confined

end Direct

/-! ## Programs -/

/-- The solver that the command starts. -/
def Command.starts? (c : Command) : Option Text :=
  match c.body with
  | .solverLoop l => some l.solver
  | _ => none

theorem Command.starts?_eq {c : Command} {l : SolverLoop} (own : c.body = .solverLoop l) :
    c.starts? = some l.solver := by
  rw [starts?, own]

/-- No solver is started inside its own loop. `around` are the open blocks with the solvers that they
have started, innermost first. -/
def loopsApart : (around : List (Option Text)) → List Command → Bool
  | _, [] => true
  | around, c :: commands =>
    if c.kind.opensBlock then
      !(c.starts?.any fun solver => around.contains (some solver)) &&
        loopsApart (c.starts? :: around) commands
    else loopsApart (if c.kind.closesBlock then around.tail else around) commands

/-- No solver is started inside its own loop. `active` are the solvers of the loops around. -/
def Program.LoopsApart : (active : List Text) → Program → Prop
  | _, done => True
  | active, plain _ _ next => next.LoopsApart active
  | active, script _ _ body _ _ next => body.LoopsApart active ∧ next.LoopsApart active
  | active, block opener body _ _ next =>
    (∀ solver ∈ opener.starts?, solver ∉ active) ∧
      body.LoopsApart (opener.starts?.toList ++ active) ∧ next.LoopsApart active
  | active, choice _ _ first _ _ second _ _ next =>
    first.LoopsApart active ∧ second.LoopsApart active ∧ next.LoopsApart active

namespace Program

theorem append_subset_append {α : Type} {front fewer more : List α} (subset : fewer ⊆ more) :
    front ++ fewer ⊆ front ++ more :=
  List.append_subset.mpr
    ⟨List.subset_append_left .., List.Subset.trans subset (List.subset_append_right ..)⟩

theorem LoopsApart.mono {program : Program} {active fewer : List Text}
    (apart : program.LoopsApart active) (subset : fewer ⊆ active) : program.LoopsApart fewer := by
  induction program generalizing active fewer with
  | done => trivial
  | plain c isPlain next ih => exact ih apart subset
  | script opener opens body closer closes next bodyIH nextIH =>
      exact ⟨bodyIH apart.1 subset, nextIH apart.2 subset⟩
  | block opener body closer ends next bodyIH nextIH =>
      obtain ⟨idle, inside, behind⟩ := apart
      exact ⟨fun solver starts member => idle solver starts (subset member),
        bodyIH inside (append_subset_append subset), nextIH behind subset⟩
  | choice opener opens first alternative turns second closer closes next firstIH secondIH nextIH =>
      obtain ⟨inFirst, inSecond, behind⟩ := apart
      exact ⟨firstIH inFirst subset, secondIH inSecond subset, nextIH behind subset⟩

/-- What is asked of a block, and what is left to ask behind its start. -/
theorem idle_of_opens {c : Command} {around : List (Option Text)} {commands : List Command}
    (apart : loopsApart around (c :: commands)) (opens : c.kind.opensBlock) :
    (∀ solver ∈ c.starts?, solver ∉ around.reduceOption) ∧
      loopsApart (c.starts? :: around) commands := by
  rw [loopsApart, if_pos opens, Bool.and_eq_true, Bool.not_eq_true'] at apart
  refine ⟨fun solver starts member => ?_, apart.2⟩
  have clear := apart.1
  rw [Option.mem_def.mp starts, Option.any_some] at clear
  rw [List.contains_iff_mem.mpr (List.reduceOption_mem_iff.mp member)] at clear
  cases clear

theorem loopsApart_of_plain {c : Command} {around : List (Option Text)} {commands : List Command}
    (apart : loopsApart around (c :: commands)) (opens : c.kind.opensBlock = false)
    (closes : c.kind.closesBlock = false) : loopsApart around commands := by
  rwa [loopsApart, if_neg (by rw [opens]; exact Bool.false_ne_true), if_neg (by simp [closes])] at apart

theorem loopsApart_of_closes {c : Command} {around : List (Option Text)} {commands : List Command}
    {own : Option Text} (apart : loopsApart (own :: around) (c :: commands))
    (closes : c.kind.closesBlock) : loopsApart around commands := by
  have opens : c.kind.opensBlock = false := by
    cases kind : c.kind <;> rw [kind] at closes <;> first | rfl | cases closes
  rwa [loopsApart, if_neg (by rw [opens]; exact Bool.false_ne_true), if_pos closes] at apart

theorem reduceOption_starts (c : Command) (around : List (Option Text)) :
    (c.starts? :: around).reduceOption = c.starts?.toList ++ around.reduceOption := by
  cases c.starts? with
  | none => rfl
  | some solver => rfl

/-- The commands of a program tell whether its loops are apart. -/
theorem LoopsApart.of_commands {program : Program} {around : List (Option Text)}
    {rest : List Command} (apart : loopsApart around (program.commands ++ rest)) :
    program.LoopsApart around.reduceOption ∧ loopsApart around rest := by
  induction program generalizing around rest with
  | done => exact ⟨trivial, apart⟩
  | plain c isPlain next ih =>
      exact ih (loopsApart_of_plain apart (CommandKind.opensBlock_of_isPlain isPlain)
        (CommandKind.closesBlock_of_isPlain isPlain))
  | script opener opens body closer closes next bodyIH nextIH =>
      rw [commands, List.cons_append, List.append_assoc, List.cons_append] at apart
      obtain ⟨-, inside⟩ := idle_of_opens apart (by rw [opens]; rfl)
      obtain ⟨ofBody, ending⟩ := bodyIH inside
      obtain ⟨ofNext, after⟩ := nextIH (loopsApart_of_closes ending (by rw [closes]; rfl))
      rw [reduceOption_starts] at ofBody
      exact ⟨⟨ofBody.mono (List.subset_append_right ..), ofNext⟩, after⟩
  | block opener body closer ends next bodyIH nextIH =>
      rw [commands, List.cons_append, List.append_assoc, List.cons_append] at apart
      obtain ⟨idle, inside⟩ := idle_of_opens apart
        (by rw [CommandKind.opensBlock, CommandKind.terminator?_of_branchEnds ends]; rfl)
      obtain ⟨ofBody, ending⟩ := bodyIH inside
      obtain ⟨ofNext, after⟩ := nextIH (loopsApart_of_closes ending
        ((CommandKind.closesBlock_iff _).mpr ⟨_, CommandKind.terminator?_of_branchEnds ends⟩))
      rw [reduceOption_starts] at ofBody
      exact ⟨⟨idle, ofBody, ofNext⟩, after⟩
  | choice opener opens first alternative turns second closer closes next firstIH secondIH nextIH =>
      rw [commands, List.cons_append, List.append_assoc, List.cons_append, List.append_assoc,
        List.cons_append] at apart
      obtain ⟨-, inside⟩ := idle_of_opens apart (by rw [opens]; rfl)
      obtain ⟨ofFirst, turning⟩ := firstIH inside
      have other := loopsApart_of_plain turning (by rw [turns]; rfl) (by rw [turns]; rfl)
      obtain ⟨ofSecond, ending⟩ := secondIH other
      obtain ⟨ofNext, after⟩ := nextIH (loopsApart_of_closes ending (by rw [closes]; rfl))
      rw [reduceOption_starts] at ofFirst ofSecond
      exact ⟨⟨ofFirst.mono (List.subset_append_right ..), ofSecond.mono (List.subset_append_right ..),
        ofNext⟩, after⟩

/-! How many positions a program takes up. -/

section

variable {opener closer : Command} {body next : Program}

theorem size_plain {c : Command} {isPlain : c.kind.isPlain} :
    (plain c isPlain next).size = next.size + 1 :=
  List.length_cons

theorem size_script {opens : opener.kind = .beginScript} {closes : closer.kind = .endScript} :
    (script opener opens body closer closes next).size = body.size + next.size + 2 := by
  simp only [size, commands, List.length_cons, List.length_append]
  omega

theorem size_block {ends : (opener.kind, closer.kind) ∈ CommandKind.branchEnds} :
    (block opener body closer ends next).size = body.size + next.size + 2 := by
  simp only [size, commands, List.length_cons, List.length_append]
  omega

theorem size_choice {first second : Program} {alternative : Command} {opens : opener.kind = .ifThen}
    {turns : alternative.kind = .otherwise} {closes : closer.kind = .endIf} :
    (choice opener opens first alternative turns second closer closes next).size =
      first.size + second.size + next.size + 3 := by
  simp only [size, commands, List.length_cons, List.length_append]
  omega

end

section

variable {a : Arena} {t : Terms} {look : Direct Unit} {active : List Text} {low high : Nat}

/-- A branch, the command that ends it and those behind. -/
theorem places_branch_iff {body : Program} {closer : Command} {behind : List Command} {position : Nat} :
    a.Places position (body.commands ++ closer :: behind) ↔
      a.Places position body.commands ∧ a.command? (.ofIndex (position + body.size)) = some closer ∧
        a.Places (position + (body.size + 1)) behind :=
  Arena.places_append_iff

/-- A branch with the command that ends it. -/
theorem ended {watched body : Direct Unit}
    (quiet : ∀ w : World, w.Orderly a → look w = (.ok (), w))
    (inside : Direct.Confined a active low high watched body) :
    Direct.Confined a active low high
      (do
        watched
        look
        Direct.count)
      (do
        body
        Direct.count) :=
  inside.bind fun _ => .watch quiet .count

/-- A program whose loops are apart is confined to its positions. -/
theorem confined (quiet : ∀ w : World, w.Orderly a → look w = (.ok (), w)) (program : Program)
    {position : Nat} (placed : a.Places position program.commands)
    (apart : program.LoopsApart active) :
    Direct.Confined a active position (position + program.size)
      (program.observed t look position) (program.run t position) := by
  induction program generalizing position active with
  | done => exact .value _
  | plain c isPlain next ih =>
      obtain ⟨here, behind⟩ := placed
      rw [size_plain]
      refine .watch quiet ?_
      refine (Direct.Confined.plain here (Nat.le_refl _) (by omega)).bind fun _ => ?_
      exact (ih behind apart).mono (Nat.le_succ _) (by omega)
  | script opener opens body closer closes next bodyIH nextIH =>
      obtain ⟨-, rest⟩ := placed
      obtain ⟨inside, -, behind⟩ := places_branch_iff.mp rest
      rw [size_script]
      refine .watch quiet (Direct.Confined.count.bind fun _ => ?_)
      refine ((bodyIH inside apart.1).mono (Nat.le_succ _) (by omega)).bind fun _ => ?_
      exact (nextIH behind apart.2).mono (by omega) (by omega)
  | block opener body closer ends next bodyIH nextIH =>
      obtain ⟨-, rest⟩ := placed
      obtain ⟨inside, -, behind⟩ := places_branch_iff.mp rest
      rw [size_block]
      obtain ⟨idle, within, after⟩ := apart
      -- The body is confined with the solver that the block starts, and without it.
      have branch {running : List Text} (apart : body.LoopsApart running) :
          Direct.Confined a running position (position + (1 + (body.size + 1)))
            (do
              body.observed t look (position + 1)
              look
              Direct.count)
            (do
              body.run t (position + 1)
              Direct.count) :=
        ended quiet ((bodyIH inside apart).mono (Nat.le_succ _) (by omega))
      refine .watch quiet (Direct.Confined.bind ?_ fun _ => ?_)
      · refine (Direct.Confined.block (fun l bodyOf => ?_)
          (branch (within.mono (List.subset_append_right ..))) fun l bodyOf => ?_).mono
            (Nat.le_refl _) (by omega)
        · exact idle l.solver (Command.starts?_eq bodyOf)
        · rw [Command.starts?, bodyOf] at within
          exact branch within
      · exact (nextIH behind after).mono (by omega) (by omega)
  | choice opener opens first alternative turns second closer closes next firstIH secondIH nextIH =>
      obtain ⟨-, rest⟩ := placed
      obtain ⟨ofFirst, -, rest⟩ := places_branch_iff.mp rest
      obtain ⟨ofSecond, -, behind⟩ := places_branch_iff.mp rest
      rw [size_choice]
      obtain ⟨inFirst, inSecond, after⟩ := apart
      refine .watch quiet (Direct.Confined.bind (.choice (ended quiet ?_) (ended quiet ?_))
        fun _ => ?_)
      · exact (firstIH ofFirst inFirst).mono (by omega) (by omega)
      · exact (secondIH ofSecond inSecond).mono (by omega) (by omega)
      · exact (nextIH behind after).mono (by omega) (by omega)

end

end Program

end MissionScript
