import MissionScript.Proofs.Step
import MissionScript.Run.Execute

/-!
# What parts of a run keep

A property of sessions that the body of a loop keeps is kept by the loop, and so on up to the whole plan. What a
command itself changes is left to the property.
-/

namespace MissionScript

namespace Run

open Step

variable {holds : Session → Prop} {α σ : Type} {c : Command} {h : Handle}

theorem keeps_fail (c : Command) (error : SequenceError) : Keeps holds (fail c error : Run α) :=
  fun _ now => now

theorem keeps_require (c : Command) (x : Except ValueError α) : Keeps holds (require c x) := by
  cases x with
  | error cause => exact keeps_fail c _
  | ok value => exact keeps_pure value

theorem keeps_test (c : Command) : Keeps holds (test c) := by
  unfold test
  split
  · exact .look fun s => keeps_require c _ s
  · exact keeps_pure _

theorem keeps_andThen {step : Run α} {after : Session → Session} (steps : Keeps holds step)
    (leaves : ∀ s, holds s → holds (after s)) : Keeps holds (andThen step after) :=
  fun s now => leaves _ (steps s now)

theorem keeps_passes {again : σ → Run Bool} {pass : σ → Run (Option σ)}
    (tests : ∀ state, Keeps holds (again state)) (steps : ∀ state, Keeps holds (pass state))
    (remaining : Nat) (start : σ) : Keeps holds (passes c again pass remaining start) := by
  induction remaining generalizing start with
  | zero =>
      unfold passes
      refine (tests start).bind fun goes => ?_
      split
      · exact .look fun s => keeps_fail c _ s
      · exact keeps_pure _
  | succ remaining ih =>
      unfold passes
      refine (tests start).bind fun goes => ?_
      split
      · refine (steps start).bind fun next => ?_
        cases next with
        | none => exact keeps_pure _
        | some state => exact ih state
      · exact keeps_pure _

theorem keeps_loop {again : σ → Run Bool} {pass : σ → Run (Option σ)} {start : σ}
    (tests : ∀ state, Keeps holds (again state)) (steps : ∀ state, Keeps holds (pass state)) :
    Keeps holds (loop c start again pass) :=
  .look fun s => keeps_passes tests steps _ start s

section

variable {body first second : Run Unit} (inside : Keeps holds body)

include inside

theorem keeps_whileLoop : Keeps holds (whileLoop c body) :=
  keeps_loop (fun _ => keeps_test c) fun _ => inside.bind fun _ => keeps_pure _

theorem keeps_forLoop
    (writes : ∀ range s objects value, c.body = .range range → holds s →
      range.index.assign s.objects value = .ok objects → holds (s.withObjects objects)) :
    Keeps holds (forLoop c body) := by
  unfold forLoop
  split
  · rename_i range own
    refine .look fun s => Keeps.bind (keeps_require c _) (fun bounds => ?_) s
    refine keeps_loop (fun _ => keeps_pure _) fun value => .look fun s now => ?_
    cases written : range.index.assign s.objects value with
    | error cause => exact now
    | ok objects =>
        exact inside.bind (fun _ => keeps_pure _) _ (writes range s objects value own now written)
  · exact keeps_pure _

theorem keeps_solverLoop (starts : ∀ solver, Keeps holds (startSolver c solver))
    (advances : ∀ solver, Keeps holds (advance solver))
    (leaves : ∀ s, holds s →
      holds { s.withArena (s.arena.forgetResults h) with active := s.active.tail }) :
    Keeps holds (solverLoop h c body) := by
  unfold solverLoop
  split
  · rename_i l _
    refine (starts l.solver).bind fun _ => keeps_andThen (keeps_loop (fun _ => keeps_pure _) fun _ => ?_) leaves
    refine inside.bind fun _ => ?_
    split
    · exact keeps_pure _
    · exact (advances l.solver).bind fun _ => keeps_pure _
  · exact keeps_pure _

end

end Run

end MissionScript
