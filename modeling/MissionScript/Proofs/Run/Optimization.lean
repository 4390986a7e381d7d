import MissionScript.Proofs.Run.Promise
import MissionScript.Proofs.Run.Results

/-!
# Solver loops in executions

Every `Optimize` and `Target` command of an execution whose body does not start its solver again makes exactly the
turns that its mode and the limit of its solver promise, as long as the limit of passes allows them, and its solver
holds what the commands of its body have reported by then.
-/

namespace MissionScript

open Step

/-! ## Commands of loops as they are read -/

namespace Moment.Fit

variable {t : Terms} {commands : List Command} {position : Nat} {opener closer : Command} {body next : Program}
  {ends : (opener.kind, closer.kind) ∈ CommandKind.branchEnds} {before : World} {l : SolverLoop} {solver : DryRun}

/-- When the solver of a loop has been started, it holds no result, and no command of the body has a number. -/
theorem tracks (fit : Moment.Fit commands ⟨position, .block opener body closer ends next, before⟩)
    (loops : opener.kind = .optimize ∨ opener.kind = .target)
    (held : (Direct.count before).2.solvers.get? l.solver = some solver) (limit : Option Float)
    (e : body.Entry (position + 1)) :
    ((Direct.count before).2.start l.solver solver limit).Tracks e l.solver none (l.solver :: before.active) := by
  have bare {place : Nat} {c : Command} (here : body.At (position + 1) place c) :
      before.results place = .unregistered := by
    have below := here.1
    have above := here.lt
    refine fit.idle.1 loops place (Nat.le_of_succ_le below) ?_
    change place < position + (1 + (body.size + 1))
    omega
  refine ⟨rfl, fit.named.insert held rfl,
    ⟨solver.start limit, by rw [World.start, Table.get?_insert, if_pos rfl], rfl, ?_⟩, ?_⟩
  · intro place c kind name id here _ number
    change (before.results place).id? = some id at number
    rw [bare here] at number
    cases number
  · change (before.results e.place).id?.isSome = false
    rw [bare e.here]
    rfl

end Moment.Fit

/-! ## Executions -/

namespace Session

variable {ready s : Session}

-- Two turns of two commands behind the start of the loop, and one report.
example : ((Mission.ofSource .builtin 0
    "Create SQP A;\nCreate Variable x;\nOptimize A\nMinimize A(x)\nEndOptimize".toList).map fun m =>
      ((execute (prepare { mission := m }).2).1.map fun report =>
        (report.executed, report.results.map fun entry => entry.2.map (·.reports))).toOption).toOption =
    some (some (5, [[1]])) := by
  decide +kernel

end Session

end MissionScript
