import MissionScript.Proofs.Run.Direct
import MissionScript.Run.Execute

/-!
# Observed runs

What holds at every moment of a run is said with a look in front of every command that runs. A look is
a step like any other: it may stop the run. A look that does nothing leaves the run as it is.
-/

namespace MissionScript

namespace Plan

/-- Run a plan with a look in front of every command. -/
def observed (look : Run Unit) : Plan → Run Unit
  | done => return
  | lost h => do
    look
    let _ ← Run.enter h
  | step h first second next => do
    look
    Run.command h (first.observed look) (second.observed look)
    next.observed look
  | script h body next => do
    look
    let _ ← Run.enter h
    body.observed look
    next.observed look
  | openScript h body => do
    look
    let c ← Run.enter h
    body.observed look
    Run.fail c (.unmatchedBlock c.subject)

theorem observed_pure (plan : Plan) : plan.observed (pure ()) = plan.run := by
  induction plan with
  | done => rfl
  | lost h => simp only [observed, run, pure_bind]
  | step h first second next firstIH secondIH nextIH =>
      simp only [observed, run, pure_bind, firstIH, secondIH, nextIH]
  | script h body next bodyIH nextIH => simp only [observed, run, pure_bind, bodyIH, nextIH]
  | openScript h body ih => simp only [observed, run, pure_bind, ih]

end Plan

namespace Program

/-- Run the commands of a program with a look in front of every one. -/
def observed (t : Terms) (look : Direct Unit) : (position : Nat) → Program → Direct Unit
  | _, done => return
  | position, plain c _ next => do
    look
    Direct.plain t position c
    next.observed t look (position + 1)
  | position, script _ _ body _ _ next => do
    look
    Direct.count
    body.observed t look (position + 1)
    next.observed t look (position + 1 + (body.size + 1))
  | position, block opener body _ _ next => do
    look
    Direct.block t position (1 + (body.size + 1)) opener do
      body.observed t look (position + 1)
      look
      Direct.count
    next.observed t look (position + 1 + (body.size + 1))
  | position, choice opener _ first _ _ second _ _ next => do
    look
    Direct.choice t opener
      (do
        first.observed t look (position + 1)
        look
        Direct.count)
      (do
        second.observed t look (position + 1 + (first.size + 1))
        look
        Direct.count)
    next.observed t look (position + 1 + (first.size + 1) + (second.size + 1))

theorem observed_pure (t : Terms) (program : Program) (position : Nat) :
    program.observed t (pure ()) position = program.run t position := by
  induction program generalizing position with
  | done => rfl
  | plain c isPlain next ih => simp only [observed, run, pure_bind, ih]
  | script opener opens body closer closes next bodyIH nextIH =>
      simp only [observed, run, pure_bind, bodyIH, nextIH]
  | block opener body closer ends next bodyIH nextIH =>
      simp only [observed, run, pure_bind, bodyIH, nextIH]
  | choice opener opens first alternative turns second closer closes next firstIH secondIH nextIH =>
      simp only [observed, run, pure_bind, firstIH, secondIH, nextIH]

end Program

/-- Run the mission once with a look in front of every command and at the end. -/
def Session.observe (look : Run Unit) : Run RunReport := do
  if !(← get).ready then prepare
  modify ({ · with executed := 0, warnings := [] })
  let s ← get
  let watched := do
    (s.arena.plan s.mission.head).observed look
    look
  Run.andThen watched forgetResults
  let s ← get
  return {
    executed := s.executed
    results := s.solvers.entries.map fun (name, solver) => (name, solver.results)
    warnings := s.warnings.reverse }

theorem Session.observe_pure : observe (pure ()) = execute := by
  unfold observe execute
  simp only [Plan.observed_pure, bind_pure_unit]

end MissionScript
