import MissionScript.Proofs.Command.Value
import MissionScript.Proofs.Run.Confinement

/-!
# Invariants of programs

A property of worlds may depend on which solvers are running. It is an invariant of some commands if counting, writing
values of the same types, reporting, and starting, advancing and leaving the solvers of their loops keep it. Then a
program of these commands keeps it, however it ends.
-/

namespace MissionScript

open Step

/-! ## Passes -/

namespace Direct

variable (t : Terms) (c : Command)

/-- A pass of a `While` loop. -/
def whilePass (body : Direct Unit) (_ : Unit) : Direct (Option Unit) := do
  body
  return some ()

/-- A pass of a `For` loop for a number of its range. -/
def forPass (range : LoopRange) (step : Float) (body : Direct Unit) (value : Float) :
    Direct (Option Float) := do
  let objects ← require t c (range.index.assign (← get).objects value)
  modify ({ · with objects })
  body
  return some (value + step)

/-- A pass of a solver loop. -/
def solverPass (l : SolverLoop) (body : Direct Unit) (_ : Unit) : Direct (Option Unit) := do
  body
  if l.mode = .runInitialGuess then return none
  return if ← advance l.solver then some () else none

variable {t c} {body : Direct Unit}

theorem forLoop_eq {range : LoopRange} (own : c.body = .range range) : forLoop t c body = (do
    let bounds ← require t c (range.bounds (← get).objects)
    passes t c (fun value => return bounds.admits value) (forPass t c range bounds.step body) t.passLimit
      bounds.start) := by
  unfold forLoop
  rw [own]
  rfl

theorem solverLoop_eq {l : SolverLoop} (own : c.body = .solverLoop l) (position size : Nat) :
    solverLoop t position size c body = (do
      startSolver t c l.solver
      andThen (passes t c (fun _ => return true) (solverPass l body) t.passLimit ()) (leave position size)) := by
  unfold solverLoop
  rw [own]
  rfl

/-! ## What loops keep -/

section

variable {holds : World → Prop} {σ : Type}

theorem keeps_fail {α : Type} (error : SequenceError) : Keeps holds (fail t c error : Direct α) :=
  fun _ now => now

theorem keeps_require {α : Type} (x : Except ValueError α) : Keeps holds (require t c x) := by
  cases x with
  | error cause => exact keeps_fail _
  | ok value => exact keeps_pure value

theorem keeps_test : Keeps holds (test t c) := by
  unfold test
  split
  · exact .look fun w => keeps_require _ w
  · exact keeps_pure _

theorem keeps_passes {again : σ → Direct Bool} {pass : σ → Direct (Option σ)}
    (tests : ∀ state, Keeps holds (again state)) (steps : ∀ state, Keeps holds (pass state))
    (remaining : Nat) (start : σ) : Keeps holds (passes t c again pass remaining start) := by
  induction remaining generalizing start with
  | zero =>
      unfold passes
      refine (tests start).bind fun goes => ?_
      split
      · exact keeps_fail _
      · exact keeps_pure _
  | succ remaining ih =>
      unfold passes
      refine (tests start).bind fun goes => ?_
      split
      · refine (steps start).bind fun next => ?_
        cases next with
        | none => exact keeps_pure _
        | some state => exact ih state
      · exact keeps_pure _

theorem keeps_whilePass (inside : Keeps holds body) (state : Unit) : Keeps holds (whilePass body state) :=
  inside.bind fun _ => keeps_pure _

theorem keeps_forPass {range : LoopRange} {step : Float} (inside : Keeps holds body)
    (writes : ∀ w objects, holds w → w.objects.SameTypes objects → holds { w with objects }) (value : Float) :
    Keeps holds (forPass t c range step body value) := by
  refine .look fun w now => ?_
  cases written : range.index.assign w.objects value with
  | error cause => exact now
  | ok objects =>
      exact inside.bind (fun _ => keeps_pure _) _ (writes w objects now (Operand.sameTypes_assign written))

theorem keeps_solverPass {l : SolverLoop} (inside : Keeps holds body)
    (advances : ∀ w solver, w.solvers.get? l.solver = some solver → holds w →
      holds { w with solvers := w.solvers.insert l.solver solver.advance }) (state : Unit) :
    Keeps holds (solverPass l body state) := by
  refine inside.bind fun _ => ?_
  split
  · exact keeps_pure _
  · refine Keeps.bind (.look fun w now => ?_) fun _ => keeps_pure _
    cases held : w.solvers.get? l.solver with
    | none => exact now
    | some solver => exact advances w solver held now

end

/-! ## Reports -/

section

variable {position : Nat} {w : World}

/-- A report fails and changes nothing, or it goes to the innermost solver. -/
theorem report_cases (t : Terms) (position : Nat) (c : Command) (w : World) :
    (∃ e, report t position c w = (.error e, w)) ∨
      ∃ name solver reported next, w.active.head? = some name ∧ w.solvers.get? name = some solver ∧
        (c.withState (w.results position)).report w.objects solver = .ok (reported, next) ∧
        report t position c w = (.ok (), { w with
          results := fun other =>
            if other = position then reported.body.resultState?.getD .unregistered else w.results other
          solvers := w.solvers.insert name next }) := by
  unfold report
  rw [Step.get_bind]
  cases inner : w.active.head?.bind fun name => (w.solvers.get? name).map fun s => (name, s) with
  | none => exact .inl ⟨_, rfl⟩
  | some entry =>
      obtain ⟨name, solver⟩ := entry
      obtain ⟨_, head, same⟩ := Option.bind_eq_some_iff.mp inner
      obtain ⟨_, held, same⟩ := Option.map_eq_some_iff.mp same
      cases same
      dsimp only
      cases reports : (c.withState (w.results position)).report w.objects solver with
      | error e => exact .inl ⟨_, rfl⟩
      | ok pair => exact .inr ⟨name, solver, pair.1, pair.2, head, held, reports, rfl⟩

theorem results_report {other : Nat} (away : other ≠ position) :
    (report t position c w).2.results other = w.results other := by
  rcases report_cases t position c w with ⟨e, failed⟩ | ⟨_, _, _, _, -, -, -, reported⟩
  · rw [failed]
  · rw [reported]
    exact if_neg away

end

end Direct

/-! ## Programs -/

/-- Every command of a row that starts at a position is admitted at its place. -/
def Admits (admitted : Nat → Command → Prop) : Nat → List Command → Prop
  | _, [] => True
  | position, c :: commands => admitted position c ∧ Admits admitted (position + 1) commands

namespace Admits

variable {admitted : Nat → Command → Prop} {position : Nat} {first second : List Command}

theorem append_iff : Admits admitted position (first ++ second) ↔
    Admits admitted position first ∧ Admits admitted (position + first.length) second := by
  induction first generalizing position with
  | nil => simp [Admits]
  | cons c first ih =>
      rw [List.cons_append, Admits, Admits, ih, List.length_cons, and_assoc, Nat.add_assoc, Nat.add_comm 1]

theorem iff_getElem? {commands : List Command} : Admits admitted position commands ↔
    ∀ index c, commands[index]? = some c → admitted (position + index) c := by
  induction commands generalizing position with
  | nil => simp [Admits]
  | cons c commands ih =>
      rw [Admits, ih]
      constructor
      · rintro ⟨here, behind⟩ index other found
        cases index with
        | zero => exact Option.some.inj found ▸ here
        | succ index => exact Nat.add_right_comm position 1 index ▸ behind index other found
      · intro each
        refine ⟨each 0 c rfl, fun index other found => ?_⟩
        exact (Nat.add_right_comm position 1 index).symm ▸ each (index + 1) other found

theorem of_forall {commands : List Command} (each : ∀ place c, admitted place c) :
    Admits admitted position commands :=
  iff_getElem?.mpr fun _ _ _ => each _ _

theorem exists_admitted {commands : List Command} (admits : Admits admitted position commands) {place : Nat}
    (below : position ≤ place) (above : place < position + commands.length) : ∃ c, admitted place c := by
  have inside : place - position < commands.length := by omega
  have here := iff_getElem?.mp admits _ _ (List.getElem?_eq_getElem inside)
  rw [Nat.add_sub_cancel' below] at here
  exact ⟨_, here⟩

/-- A branch, the command that ends it and those behind. -/
theorem branch_iff {body : Program} {closer : Command} {behind : List Command} :
    Admits admitted position (body.commands ++ closer :: behind) ↔
      Admits admitted position body.commands ∧ admitted (position + body.size) closer ∧
        Admits admitted (position + (body.size + 1)) behind :=
  append_iff

end Admits

/-- A property of worlds, given the solvers that are running, that these commands keep in whatever they do. -/
structure Program.Invariant (t : Terms) (admitted : Nat → Command → Prop) (holds : List Text → World → Prop) :
    Prop where
  counts : ∀ {active w executed warnings}, holds active w → holds active { w with executed, warnings }
  writes : ∀ {active w objects}, holds active w → w.objects.SameTypes objects → holds active { w with objects }
  reports : ∀ {active w position c}, admitted position c → c.kind.isPlain → holds active w →
    holds active (Direct.report t position c w).2
  starts : ∀ {active w position c l solver} limit, admitted position c → c.body = .solverLoop l →
    w.solvers.get? l.solver = some solver → holds active w →
    holds (l.solver :: active)
      { w with solvers := w.solvers.insert l.solver (solver.start limit), active := l.solver :: w.active }
  advances : ∀ {active w position c l solver}, admitted position c → c.body = .solverLoop l →
    w.solvers.get? l.solver = some solver → holds (l.solver :: active) w →
    holds (l.solver :: active) { w with solvers := w.solvers.insert l.solver solver.advance }
  /-- The places of a loop are those of its commands. -/
  leaves : ∀ {active w position size c l}, admitted position c → c.body = .solverLoop l →
    (∀ place, position ≤ place → place < position + size → ∃ c, admitted place c) →
    holds (l.solver :: active) w → holds active (Direct.leave position size w)

namespace Program.Invariant

variable {t : Terms} {admitted : Nat → Command → Prop} {holds : List Text → World → Prop}
  {position size : Nat} {c : Command} {body first second : Direct Unit} (inv : Invariant t admitted holds)
  (active : List Text)

include inv

theorem count : Keeps (holds active) Direct.count := .change fun _ => inv.counts

theorem assign : Keeps (holds active) (Direct.assign t c) := by
  unfold Direct.assign
  split
  · rename_i target expression _
    refine .look fun w now => ?_
    cases written : expression.assignTo w.objects target with
    | error cause => exact now
    | ok written' => exact inv.writes now (Expression.sameTypes_assignTo written)
  · exact keeps_pure _

theorem plain (here : admitted position c) (isPlain : c.kind.isPlain) :
    Keeps (holds active) (Direct.plain t position c) := by
  refine (inv.count active).bind fun _ => ?_
  split
  · exact inv.assign active
  · exact .change fun _ => inv.counts
  · exact fun _ => inv.reports here isPlain
  · exact fun _ => inv.reports here isPlain
  · exact keeps_pure _

theorem forLoop (inside : Keeps (holds active) body) : Keeps (holds active) (Direct.forLoop t c body) := by
  cases own : c.body with
  | range range =>
      rw [Direct.forLoop_eq own]
      refine .look fun w => Keeps.bind (Direct.keeps_require _) (fun bounds => ?_) w
      exact Direct.keeps_passes (fun _ => keeps_pure _)
        (Direct.keeps_forPass inside fun _ _ => inv.writes) _ _
  | _ =>
      unfold Direct.forLoop
      rw [own]
      exact keeps_pure _

theorem startSolver {l : SolverLoop} {w : World} (here : admitted position c) (own : c.body = .solverLoop l)
    (now : holds active w) :
    (∃ e, Direct.startSolver t c l.solver w = (.error e, w)) ∨
      ∃ begun, Direct.startSolver t c l.solver w = (.ok (), begun) ∧ holds (l.solver :: active) begun := by
  unfold Direct.startSolver
  rw [Step.get_bind]
  cases w.objects.get? l.solver with
  | none => exact .inl ⟨_, rfl⟩
  | some object =>
      cases held : w.solvers.get? l.solver with
      | none => exact .inl ⟨_, rfl⟩
      | some solver => exact .inr ⟨_, rfl, inv.starts _ here own held now⟩

theorem solverPass {l : SolverLoop} (here : admitted position c) (own : c.body = .solverLoop l)
    (inside : Keeps (holds (l.solver :: active)) body) (state : Unit) :
    Keeps (holds (l.solver :: active)) (Direct.solverPass l body state) :=
  Direct.keeps_solverPass inside (fun _ _ held now => inv.advances here own held now) state

theorem solverLoop (here : admitted position c)
    (inside : ∀ active, Keeps (holds active) body)
    (places : ∀ place, position ≤ place → place < position + size → ∃ c, admitted place c) :
    Keeps (holds active) (Direct.solverLoop t position size c body) := by
  cases own : c.body with
  | solverLoop l =>
      rw [Direct.solverLoop_eq own]
      intro w now
      rcases inv.startSolver active here own now with ⟨e, failed⟩ | ⟨begun, started, running⟩
      · rw [Step.bind_error failed]
        exact now
      · rw [Step.bind_ok started]
        refine inv.leaves here own places (Direct.keeps_passes (fun _ => keeps_pure _) ?_ _ _ begun running)
        exact inv.solverPass active here own (inside _)
  | _ =>
      unfold Direct.solverLoop
      rw [own]
      exact keeps_pure _

theorem block (here : admitted position c)
    (inside : ∀ active, Keeps (holds active) body)
    (places : ∀ place, position ≤ place → place < position + size → ∃ c, admitted place c) :
    Keeps (holds active) (Direct.block t position size c body) := by
  refine (inv.count active).bind fun _ => ?_
  split
  · refine Direct.keeps_test.bind fun holds => ?_
    split
    · exact inside active
    · exact keeps_pure _
  · exact Direct.keeps_passes (fun _ => Direct.keeps_test) (Direct.keeps_whilePass (inside active)) _ _
  · exact inv.forLoop active (inside active)
  · exact inv.solverLoop active here inside places
  · exact inv.solverLoop active here inside places
  · exact keeps_pure _

theorem choice (inFirst : Keeps (holds active) first) (inSecond : Keeps (holds active) second) :
    Keeps (holds active) (Direct.choice t c first second) := by
  refine (inv.count active).bind fun _ => Direct.keeps_test.bind fun holds => ?_
  split
  · exact inFirst
  · exact inSecond

theorem ended (inside : Keeps (holds active) body) : Keeps (holds active) (do
    body
    Direct.count) :=
  inside.bind fun _ => inv.count active

end Program.Invariant

/-- What the commands of a program keep is kept by running it. -/
theorem Program.Invariant.run {t : Terms} {admitted : Nat → Command → Prop} {holds : List Text → World → Prop}
    (inv : Invariant t admitted holds) (program : Program) (position : Nat)
    (admits : Admits admitted position program.commands) (active : List Text) :
    Keeps (holds active) (program.run t position) := by
  induction program generalizing position active with
  | done => exact keeps_pure _
  | plain c isPlain next ih => exact (inv.plain active admits.1 isPlain).bind fun _ => ih _ admits.2 active
  | script opener opens body closer closes next bodyIH nextIH =>
      obtain ⟨inside, -, behind⟩ := Admits.branch_iff.mp admits.2
      exact (inv.count active).bind fun _ => (bodyIH _ inside active).bind fun _ => nextIH _ behind active
  | block opener body closer ends next bodyIH nextIH =>
      obtain ⟨inside, -, behind⟩ := Admits.branch_iff.mp admits.2
      have ended (active : List Text) := inv.ended active (bodyIH _ inside active)
      refine (inv.block active admits.1 ended fun place below above => ?_).bind fun _ => nextIH _ behind active
      have size : (Program.block opener body closer ends next).commands.length = _ := Program.size_block
      exact admits.exists_admitted below (by omega)
  | choice opener opens first alternative turns second closer closes next firstIH secondIH nextIH =>
      obtain ⟨inFirst, -, rest⟩ := Admits.branch_iff.mp admits.2
      obtain ⟨inSecond, -, behind⟩ := Admits.branch_iff.mp rest
      exact (inv.choice active (inv.ended active (firstIH _ inFirst active))
        (inv.ended active (secondIH _ inSecond active))).bind fun _ => nextIH _ behind active

end MissionScript
