import MissionScript.Proofs.Run.Turns

/-!
# One result in a solver loop

If no other command in the body of a solver loop has a result of the kind and name of this one, then the first report
of the command registers it, every other one gives it another value, and the solver never holds a second result of
this kind and name. What the other commands report goes to other results, whatever they are and however often they
run.
-/

namespace MissionScript

open Step

/-! ## Results of a kind and name -/

namespace DryRun

variable {s next : DryRun} {id : Nat} {kind kind' : ResultKind} {name name' : Text} {value : Float} {r : SolverResult}

/-- The results of this kind and name. -/
def matching (s : DryRun) (kind : ResultKind) (name : Text) : List SolverResult :=
  s.results.filter fun r => r.kind == kind && r.name == name

end DryRun

namespace ResultState

variable {state after : ResultState} {owner name name' : Text} {kind kind' : ResultKind}
  {value : Except ValueError Float} {solver next : DryRun} {result : Option SolverResult}

end ResultState

/-! ## What a world keeps about a result -/

namespace Program

/-- The command stands at this place in a program that starts at this position. -/
def At (program : Program) (position place : Nat) (c : Command) : Prop :=
  position ≤ place ∧ program.commands[place - position]? = some c

/-- A result command in a program whose result no other command there has. -/
structure Entry (program : Program) (position : Nat) where
  place : Nat
  command : Command
  owner : Text
  kind : ResultKind
  name : Text
  here : program.At position place command
  result : command.body.result? = some (owner, kind, name)
  alone : ∀ {other c}, program.At position other c → other ≠ place →
    ∀ owner, c.body.result? ≠ some (owner, kind, name)

theorem At.eq {program : Program} {position place : Nat} {c c' : Command} (here : program.At position place c)
    (also : program.At position place c') : c = c' :=
  Option.some.inj (here.2.symm.trans also.2)

end Program

/-- These solvers are running, and one of them holds one result of the kind and name of the entry or none. -/
structure World.Tracks {body : Program} {low : Nat} (e : body.Entry low) (solver : Text)
    (result : Option SolverResult) (active : List Text) (w : World) : Prop where
  running : w.active = active
  named : w.Named
  held : ∃ held, w.solvers.get? solver = some held ∧ held.matching e.kind e.name = result.toList ∧
    -- The numbers of all commands stand for the results of the commands.
    ∀ {place c kind name id}, body.At low place c → c.body.result? = some (solver, kind, name) →
      (w.results place).id? = some id → held.holds id kind name
  /-- The command of the entry has a number if there is a result. -/
  numbered : (w.results e.place).id?.isSome = result.isSome

namespace World.Tracks

variable {body : Program} {low : Nat} {e : body.Entry low} {solver : Text} {result : Option SolverResult}
  {active : List Text} {t : Terms} {w : World}

/-- A report to some solver. If it is the one that is followed, it may change the result. -/
theorem reported (now : w.Tracks e solver result active) {place : Nat} {c : Command} {name : Text}
    {held next : DryRun} {state : ResultState} {result' : Option SolverResult} (here : body.At low place c)
    (found : w.solvers.get? name = some held) (same : next.name = held.name)
    (mine : name = solver → next.matching e.kind e.name = result'.toList ∧
      (∀ {id kind name}, held.holds id kind name → next.holds id kind name) ∧
        ∀ {kind name id}, c.body.result? = some (solver, kind, name) → state.id? = some id →
          next.holds id kind name)
    (away : name ≠ solver → result' = result ∧ ∀ kind name, c.body.result? ≠ some (solver, kind, name))
    (numbered : (if e.place = place then state else w.results e.place).id?.isSome = result'.isSome) :
    Tracks e solver result' active { w with
      results := fun other => if other = place then state else w.results other
      solvers := w.solvers.insert name next } where
  running := now.running
  named := now.named.insert found same
  numbered := numbered
  held := by
    obtain ⟨own, ofSolver, matches', numbers⟩ := now.held
    by_cases there : name = solver
    · subst there
      rw [found] at ofSolver
      cases ofSolver
      obtain ⟨single, kept, given⟩ := mine rfl
      refine ⟨next, by rw [Table.get?_insert, if_pos rfl], single, fun {place' c' _ _ _} at' own number => ?_⟩
      by_cases at'' : place' = place
      · subst at''
        rw [here.eq at'] at given
        exact given own (by simpa using number)
      · exact kept (numbers at' own (by simpa [at''] using number))
    · obtain ⟨rfl, none⟩ := away there
      refine ⟨own, by rw [Table.get?_insert, if_neg (Ne.symm there), ofSolver], matches',
        fun {place' c' _ _ _} at' own number => ?_⟩
      by_cases at'' : place' = place
      · subst at''
        rw [here.eq at'] at none
        exact absurd own (none _ _)
      · exact numbers at' own (by simpa [at''] using number)

/-- The solver that is followed completes a pass. -/
theorem advance (now : w.Tracks e solver result active) {held : DryRun} (found : w.solvers.get? solver = some held) :
    Tracks e solver result active { w with solvers := w.solvers.insert solver held.advance } where
  running := now.running
  named := now.named.insert found rfl
  held := by
    obtain ⟨own, ofSolver, kept⟩ := now.held
    rw [found] at ofSolver
    cases ofSolver
    exact ⟨held.advance, by rw [Table.get?_insert, if_pos rfl], kept⟩
  numbered := now.numbered

end World.Tracks

end MissionScript
