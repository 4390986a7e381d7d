import MissionScript.Proofs.Objects.Renaming
import MissionScript.Proofs.Run.Confinement

/-!
# Runs under another name

A program and the program in which an object is renamed run side by side: they take the same branches,
make the same passes and write the same values, unless one of them misses a result that it reports. The
results that solvers keep may differ, for a renamed result may be called what another one is called.
-/

namespace MissionScript

/-- Two solvers under their names that have come equally far. What they have recorded may differ. -/
structure DryRun.Follows (name name' : Text) (d e : DryRun) : Prop where
  name : d.name = name
  name' : e.name = name'
  limit : e.limit = d.limit
  passes : e.passes = d.passes
  state : e.state = d.state

/-- The second world is the first one under the new name, as far as a program looks at it that uses
these solvers. -/
structure World.Renames (old new : Text) (used : List Text) (w v : World) : Prop where
  objects : Store.Renames old new w.objects v.objects
  solvers : ∀ name ∈ used, Option.Rel (DryRun.Follows name (Text.renamed old new name))
    (w.solvers.get? name) (v.solvers.get? (Text.renamed old new name))
  active : v.active = w.active.map (Text.renamed old new)
  running : w.active ⊆ used
  /-- The same commands have numbers. -/
  numbered : ∀ position, (v.results position).id?.isSome = (w.results position).id?.isSome

/-! ## Reports -/

namespace DryRun.Follows

variable {name name' : Text} {d e : DryRun}

theorem refl (named : d.name = name) : Follows name name d d := ⟨named, named, rfl, rfl, rfl⟩

theorem register (follows : Follows name name' d e) (kind kind' : ResultKind) (title title' : Text) :
    Follows name name' (d.register kind title).2 (e.register kind' title').2 := by
  -- Registering a result changes nothing but the list of results.
  have same (d : DryRun) (kind : ResultKind) (title : Text) :
      ∃ results, (d.register kind title).2 = { d with results } := by
    unfold DryRun.register
    split
    · exact ⟨d.results, rfl⟩
    · exact ⟨_, rfl⟩
  obtain ⟨_, left⟩ := same d kind title
  obtain ⟨_, right⟩ := same e kind' title'
  rw [left, right]
  exact ⟨follows.name, follows.name', follows.limit, follows.passes, follows.state⟩

theorem report? (follows : Follows name name' d e) {id id' : Nat} {value value' : Float}
    {next next' : DryRun} (reports : d.report? id value = some next)
    (reports' : e.report? id' value' = some next') : Follows name name' next next' := by
  unfold DryRun.report? at reports reports'
  split at reports
  · cases reports
  split at reports'
  · cases reports'
  cases reports
  cases reports'
  exact ⟨follows.name, follows.name', follows.limit, follows.passes, follows.state⟩

theorem start (follows : Follows name name' d e) (limit : Option Float) :
    Follows name name' (d.start limit) (e.start limit) :=
  ⟨follows.name, follows.name', rfl, rfl, rfl⟩

theorem advance (follows : Follows name name' d e) : Follows name name' d.advance e.advance := by
  have passes : e.advance.passes = d.advance.passes := by
    unfold DryRun.advance
    rw [follows.passes]
  refine ⟨follows.name, follows.name', follows.limit, passes, ?_⟩
  unfold DryRun.advance
  dsimp only
  rw [follows.limit, follows.passes]

end DryRun.Follows

/-- Two reports of the same value end alike, if neither misses its result. -/
theorem ResultState.report_follows {state state' : ResultState} {owner owner' name name' : Text}
    {title title' : Text} {kind kind' : ResultKind} {value value' : Except ValueError Float}
    {d e : DryRun}
    (follows : DryRun.Follows name name' d e) (owners : owner' = name' ↔ owner = name)
    (numbered : state'.id?.isSome = state.id?.isSome) (values : Outcome.Alike Eq value value')
    (finds : Outcome.Only (·.lacksResult = false) (state.report owner kind title value d))
    (finds' : Outcome.Only (·.lacksResult = false) (state'.report owner' kind' title' value' e)) :
    Outcome.Alike (fun x y => y.1.id?.isSome = x.1.id?.isSome ∧ DryRun.Follows name name' x.2 y.2)
      (state.report owner kind title value d) (state'.report owner' kind' title' value' e) := by
  unfold report at finds finds' ⊢
  have same : (owner' != e.name) = (owner != d.name) := by
    rw [follows.name, follows.name', Bool.eq_iff_iff, bne_iff_ne, bne_iff_ne]
    exact not_congr owners
  rw [same] at finds' ⊢
  split
  · exact .error _ _
  rename_i own
  rw [if_neg own] at finds finds'
  cases number : state.id? with
  | none =>
      rw [number] at numbered
      cases number' : state'.id? with
      | none => exact .ok ⟨rfl, follows.register kind kind' title title'⟩
      | some id' =>
          rw [number'] at numbered
          cases numbered
  | some id =>
      rw [number] at numbered finds
      cases number' : state'.id? with
      | none =>
          rw [number'] at numbered
          cases numbered
      | some id' =>
          rw [number'] at finds'
          cases values with
          | error cause cause' => exact .error _ _
          | @ok number _ equal =>
              cases equal
              dsimp only at finds finds' ⊢
              cases reports : d.report? id number with
              | none =>
                  rw [reports] at finds
                  cases finds _ rfl
              | some next =>
                  cases reports' : e.report? id' number with
                  | none =>
                      rw [reports'] at finds'
                      cases finds' _ rfl
                  | some next' => exact .ok ⟨rfl, follows.report? reports reports'⟩

namespace Command

variable {c c' : Command} {name name' : Text}

/-- What a report leaves behind: a command that has a number or not, and a solver. -/
def Reported (name name' : Text) (x y : Command × DryRun) : Prop :=
  (y.1.body.resultState?.getD .unregistered).id?.isSome =
      (x.1.body.resultState?.getD .unregistered).id?.isSome ∧
    DryRun.Follows name name' x.2 y.2

/-- What is reported for a command that has a result. -/
def afterReport (c : Command) :
    Except RunError (ResultState × DryRun) → Except SequenceError (Command × DryRun)
  | .ok (after, next) => .ok (c.withState after, next)
  | .error cause => .error (.execution c.subject cause)

theorem finds_of_afterReport {x : Except RunError (ResultState × DryRun)}
    (finds : Outcome.Only (·.lacksResult = false) (c.afterReport x)) :
    Outcome.Only (·.lacksResult = false) x := by
  intro cause failed
  rw [failed] at finds
  exact finds _ rfl

theorem reported_afterReport {x y : Except RunError (ResultState × DryRun)}
    {own own' : Text × ResultKind × Text} (result : c.body.result? = some own)
    (result' : c'.body.result? = some own')
    (alike : Outcome.Alike
      (fun x y => y.1.id?.isSome = x.1.id?.isSome ∧ DryRun.Follows name name' x.2 y.2) x y) :
    Outcome.Alike (Reported name name') (c.afterReport x) (c'.afterReport y) := by
  cases alike with
  | error cause cause' => exact .error _ _
  | ok related =>
      refine .ok ⟨?_, related.2⟩
      dsimp only
      rw [withState, withState, CommandBody.resultState?_withState result,
        CommandBody.resultState?_withState result']
      exact related.1

/-- The reports of a command and of the renamed one end alike, if neither misses its result. -/
theorem report_alike {old new : Text} {store store' : Store} {state state' : ResultState} {d e : DryRun}
    (bodies : c.body.Renames old new c'.body) (avoids : c.body.Avoids new) (other : name ≠ new)
    (stores : Store.Renames old new store store')
    (follows : DryRun.Follows name (Text.renamed old new name) d e)
    (numbered : state'.id?.isSome = state.id?.isSome)
    (finds : Outcome.Only (·.lacksResult = false) ((c.withState state).report store d))
    (finds' : Outcome.Only (·.lacksResult = false) ((c'.withState state').report store' e)) :
    Outcome.Alike (Reported name (Text.renamed old new name)) ((c.withState state).report store d)
      ((c'.withState state').report store' e) := by
  have plain (bare : c.body.result? = none) (bare' : c'.body.result? = none) :
      Outcome.Alike (Reported name (Text.renamed old new name)) ((c.withState state).report store d)
        ((c'.withState state').report store' e) := by
    have kept := CommandBody.resultState?_of_result? bare
    have kept' := CommandBody.resultState?_of_result? bare'
    rw [withState_of_none kept, withState_of_none kept', report_of_no_result bare,
      report_of_no_result bare']
    refine .ok ⟨?_, follows⟩
    dsimp only
    rw [kept, kept']
  generalize body : c.body = before at bodies avoids
  generalize body' : c'.body = after at bodies
  cases bodies with
  | objective o title =>
      rw [report_objective body] at finds ⊢
      rw [report_objective body'] at finds' ⊢
      refine reported_afterReport (by rw [body]; rfl) (by rw [body']; rfl) ?_
      exact ResultState.report_follows follows (Text.renamed_inj avoids.1 other) numbered
        (Operand.value_rename stores avoids.2) (finds_of_afterReport finds) (finds_of_afterReport finds')
  | constraint o title boundName =>
      rw [report_constraint body] at finds ⊢
      rw [report_constraint body'] at finds' ⊢
      refine reported_afterReport (by rw [body]; rfl) (by rw [body']; rfl) ?_
      exact ResultState.report_follows follows (Text.renamed_inj avoids.1 other) numbered
        (Constraint.value_rename stores avoids.2 rfl rfl rfl) (finds_of_afterReport finds)
        (finds_of_afterReport finds')
  | _ => exact plain (by rw [body]; rfl) (by rw [body']; rfl)

end Command

/-! ## Steps side by side -/

namespace World.Renames

variable {old new : Text} {used : List Text} {w v : World}

theorem withObjects (renames : w.Renames old new used v) {objects objects' : Store}
    (stores : Store.Renames old new objects objects') :
    World.Renames old new used { w with objects } { v with objects := objects' } :=
  { renames with objects := stores }

theorem withSolver (renames : w.Renames old new used v) (fresh : new ∉ used) {name : Text}
    (member : name ∈ used) {d e : DryRun}
    (follows : DryRun.Follows name (Text.renamed old new name) d e) :
    World.Renames old new used { w with solvers := w.solvers.insert name d }
      { v with solvers := v.solvers.insert (Text.renamed old new name) e } where
  objects := renames.objects
  solvers other inside := by
    have away {name : Text} (member : name ∈ used) : name ≠ new := fun same => fresh (same ▸ member)
    rw [Table.get?_insert, Table.get?_insert]
    simp only [Text.renamed_inj (away inside) (away member)]
    by_cases here : other = name
    · rw [if_pos here, if_pos here, here]
      exact .some follows
    · rw [if_neg here, if_neg here]
      exact renames.solvers other inside
  active := renames.active
  running := renames.running
  numbered := renames.numbered

/-- The solver of the innermost loop. -/
theorem innermost (renames : w.Renames old new used v) :
    Option.Rel (fun x y => x.1 ∈ used ∧ y.1 = Text.renamed old new x.1 ∧
        DryRun.Follows x.1 (Text.renamed old new x.1) x.2 y.2)
      (w.active.head?.bind fun name => (w.solvers.get? name).map fun solver => (name, solver))
      (v.active.head?.bind fun name => (v.solvers.get? name).map fun solver => (name, solver)) := by
  have running := renames.running
  rw [renames.active]
  cases active : w.active with
  | nil => exact .none
  | cons name outer =>
      rw [active] at running
      have member : name ∈ used := running List.mem_cons_self
      have solvers := renames.solvers name member
      rw [List.map_cons, List.head?_cons, List.head?_cons, Option.bind_some, Option.bind_some]
      revert solvers
      generalize w.solvers.get? name = held
      generalize v.solvers.get? (Text.renamed old new name) = held'
      intro solvers
      cases solvers with
      | none => exact .none
      | some follows => exact .some ⟨member, rfl, follows⟩

end World.Renames

namespace Direct

variable {old new : Text} {used : List Text} {t : Terms} {α β σ : Type}

/-- How two steps end that neither miss a result: alike, in renamed worlds. -/
def Meets (old new : Text) (used : List Text) (x y : Except Diagnostic α × World) : Prop :=
  Outcome.Only (·.error.lacksResult = false) x.1 → Outcome.Only (·.error.lacksResult = false) y.1 →
    Outcome.Alike Eq x.1 y.1 ∧ x.2.Renames old new used y.2

/-- Two steps that end so from renamed worlds. -/
def Mirrors (old new : Text) (used : List Text) (step step' : Direct α) : Prop :=
  ∀ w v : World, w.Renames old new used v → Meets old new used (step w) (step' v)

namespace Mirrors

variable {c c' : Command} {step step' : Direct α} {f f' : α → Direct β} {w v : World}

theorem value (value : α) : Mirrors old new used (pure value) (pure value) :=
  fun _ _ renames _ _ => ⟨.ok rfl, renames⟩

theorem bind (first : Mirrors old new used step step')
    (rest : ∀ value, Mirrors old new used (f value) (f' value)) :
    Mirrors old new used (step >>= f) (step' >>= f') := by
  intro w v renames finds finds'
  have meets := first w v renames
  cases ran : step w with
  | mk outcome after =>
      cases ran' : step' v with
      | mk outcome' after' =>
          rw [ran, ran'] at meets
          cases outcome with
          | error error =>
              rw [Step.bind_error ran] at finds ⊢
              cases outcome' with
              | error error' =>
                  rw [Step.bind_error ran'] at finds' ⊢
                  obtain ⟨-, related⟩ := meets (.error (finds _ rfl)) (.error (finds' _ rfl))
                  exact ⟨.error _ _, related⟩
              | ok value' => cases (meets (.error (finds _ rfl)) (.ok _)).1
          | ok value =>
              rw [Step.bind_ok ran] at finds ⊢
              cases outcome' with
              | error error' =>
                  rw [Step.bind_error ran'] at finds'
                  cases (meets (.ok _) (.error (finds' _ rfl))).1
              | ok value' =>
                  obtain ⟨alike, related⟩ := meets (.ok _) (.ok _)
                  cases alike with
                  | ok equal =>
                      cases equal
                      rw [Step.bind_ok ran'] at finds' ⊢
                      exact rest value after after' related finds finds'

theorem look {f f' : World → Direct β} (each : ∀ w v : World, w.Renames old new used v →
    Meets old new used (f w w) (f' v v)) : Mirrors old new used (get >>= f) (get >>= f') :=
  each

theorem change {f f' : World → World}
    (each : ∀ w v : World, w.Renames old new used v → (f w).Renames old new used (f' v)) :
    Mirrors old new used (modify f) (modify f') :=
  fun w v renames _ _ => ⟨.ok rfl, each w v renames⟩

theorem fail (error error' : SequenceError) :
    Mirrors old new used (Direct.fail t c error : Direct α) (Direct.fail t c' error') :=
  fun _ _ renames _ _ => ⟨.error _ _, renames⟩

/-- Both compute a value and go on with it. -/
theorem require {γ γ' : Type} {R : γ → γ' → Prop} {x : Except ValueError γ} {x' : Except ValueError γ'}
    {f : γ → Direct β} {f' : γ' → Direct β} (alike : Outcome.Alike R x x')
    (rest : ∀ value value', R value value' → Mirrors old new used (f value) (f' value')) :
    Mirrors old new used (Direct.require t c x >>= f) (Direct.require t c' x' >>= f') := by
  cases alike with
  | ok related => exact rest _ _ related
  | error cause cause' => exact fun _ _ renames _ _ => ⟨.error _ _, renames⟩

theorem count : Mirrors old new used Direct.count Direct.count :=
  change fun _ _ renames => { renames with }

theorem withObjects {objects objects' : Store} (stores : Store.Renames old new objects objects') :
    Mirrors old new used (modify ({ · with objects }) : Direct Unit)
      (modify ({ · with objects := objects' })) :=
  change fun _ _ renames => renames.withObjects stores

theorem skipCall : Mirrors old new used (Direct.skipCall t c) (Direct.skipCall t c') :=
  change fun _ _ renames => { renames with }

/-! ## Commands -/

section

variable (bodies : c.body.Renames old new c'.body) (avoids : c.body.Avoids new)

include bodies avoids

theorem assign (differ : old ≠ new) :
    Mirrors old new used (Direct.assign t c) (Direct.assign t c') := by
  unfold Direct.assign
  generalize c.body = before at bodies avoids
  generalize c'.body = after at bodies
  cases bodies with
  | assignment target expression =>
      refine look fun w v renames => ?_
      have alike := Expression.assignTo_rename renames.objects differ avoids.2 avoids.1
      refine require alike (fun (_, objects) (_, objects') related => ?_) w v renames
      exact withObjects related.2
  | _ => exact value _

theorem test : Mirrors old new used (Direct.test t c) (Direct.test t c') := by
  unfold Direct.test
  generalize c.body = before at bodies avoids
  generalize c'.body = after at bodies
  cases bodies with
  | condition condition =>
      refine look fun w v renames => ?_
      have both : Mirrors old new used (Direct.require t c (condition.value w.objects) >>= pure)
          (Direct.require t c' ((condition.rename old new).value v.objects) >>= pure) :=
        require (Condition.value_rename renames.objects avoids) fun holds _ same => same ▸ value holds
      rw [bind_pure, bind_pure] at both
      exact both w v renames
  | _ => exact value _

omit bodies avoids in
theorem finds_of_fail {error : SequenceError}
    (finds : Outcome.Only (·.error.lacksResult = false) ((Direct.fail t c error : Direct α) w).1) :
    error.lacksResult = false := by
  have found : (Diagnostic.locate error c.span t.source).error.lacksResult = false := finds _ rfl
  rwa [error_locate] at found

theorem report (fresh : new ∉ used) (position : Nat) :
    Mirrors old new used (Direct.report t position c) (Direct.report t position c') := by
  unfold Direct.report
  refine look fun w v renames => ?_
  have inner := renames.innermost
  revert inner
  generalize (w.active.head?.bind fun name => (w.solvers.get? name).map fun s => (name, s)) = entry
  generalize (v.active.head?.bind fun name => (v.solvers.get? name).map fun s => (name, s)) = entry'
  intro inner
  cases inner with
  | none => exact fail _ _ w v renames
  | @some x y related =>
      obtain ⟨name, d⟩ := x
      obtain ⟨_, e⟩ := y
      obtain ⟨member, rfl, follows⟩ := related
      have other : name ≠ new := fun same => fresh (same ▸ member)
      have alike := Command.report_alike bodies avoids other renames.objects follows
        (renames.numbered position)
      revert alike
      dsimp only
      generalize (c.withState (w.results position)).report w.objects d = reports
      generalize (c'.withState (v.results position)).report v.objects e = reports'
      intro alike finds finds'
      have ends := alike
        (fun cause failed => by
          subst failed
          exact finds_of_fail finds)
        (fun cause failed => by
          subst failed
          exact finds_of_fail finds')
      cases ends with
      | error cause cause' => exact ⟨.error _ _, renames⟩
      | @ok x y reported =>
          have solvers := renames.withSolver fresh member reported.2
          refine ⟨.ok rfl, { solvers with numbered := fun other => ?_ }⟩
          change (ResultState.id? (if other = position then _ else _)).isSome =
            (ResultState.id? (if other = position then _ else _)).isSome
          by_cases here : other = position
          · rw [if_pos here, if_pos here]
            exact reported.1
          · rw [if_neg here, if_neg here]
            exact renames.numbered other

theorem plain (kinds : c'.kind = c.kind) (differ : old ≠ new) (fresh : new ∉ used) (position : Nat) :
    Mirrors old new used (Direct.plain t position c) (Direct.plain t position c') := by
  unfold Direct.plain
  rw [kinds]
  refine count.bind fun _ => ?_
  split
  · exact assign bodies avoids differ
  · exact skipCall
  · exact report bodies avoids fresh position
  · exact report bodies avoids fresh position
  · exact value _

end

/-! ## Blocks -/

theorem passes {again again' : σ → Direct Bool} {pass pass' : σ → Direct (Option σ)}
    (tests : ∀ state, Mirrors old new used (again state) (again' state))
    (steps : ∀ state, Mirrors old new used (pass state) (pass' state)) (remaining : Nat) (start : σ) :
    Mirrors old new used (Direct.passes t c again pass remaining start)
      (Direct.passes t c' again' pass' remaining start) := by
  induction remaining generalizing start with
  | zero =>
      unfold Direct.passes
      refine (tests start).bind fun goes => ?_
      split
      · exact fail _ _
      · exact value _
  | succ remaining ih =>
      unfold Direct.passes
      refine (tests start).bind fun goes => ?_
      split
      · refine (steps start).bind fun next => ?_
        cases next with
        | none => exact value _
        | some state => exact ih state
      · exact value _

theorem startSolver (fresh : new ∉ used) {solver : Text} (member : solver ∈ used) :
    Mirrors old new used (Direct.startSolver t c solver)
      (Direct.startSolver t c' (Text.renamed old new solver)) := by
  unfold Direct.startSolver
  refine look fun w v renames => ?_
  have other : solver ≠ new := fun same => fresh (same ▸ member)
  have solvers := renames.solvers solver member
  rw [renames.objects.held solver other]
  revert solvers
  generalize w.solvers.get? solver = held
  generalize v.solvers.get? (Text.renamed old new solver) = held'
  intro solvers
  cases w.objects.get? solver with
  | none => exact fail _ _ w v renames
  | some object =>
      cases solvers with
      | none => exact fail _ _ w v renames
      | some follows =>
          have started := renames.withSolver fresh member
            (follows.start (object.parameter? maximumIterations))
          refine fun _ _ => ⟨.ok rfl, { started with active := ?_, running := ?_ }⟩
          · exact congrArg (Text.renamed old new solver :: ·) renames.active
          · exact List.cons_subset.mpr ⟨member, renames.running⟩

theorem advance (fresh : new ∉ used) {solver : Text} (member : solver ∈ used) :
    Mirrors old new used (Direct.advance solver)
      (Direct.advance (Text.renamed old new solver)) := by
  unfold Direct.advance
  refine look fun w v renames => ?_
  have solvers := renames.solvers solver member
  revert solvers
  generalize w.solvers.get? solver = held
  generalize v.solvers.get? (Text.renamed old new solver) = held'
  intro solvers
  cases solvers with
  | none => exact value _ w v renames
  | @some d e follows =>
      have advanced := follows.advance
      refine fun _ _ => ⟨.ok ?_, renames.withSolver fresh member advanced⟩
      rw [advanced.state]

theorem andThen {after after' : World → World} (steps : Mirrors old new used step step')
    (each : ∀ w v : World, w.Renames old new used v → (after w).Renames old new used (after' v)) :
    Mirrors old new used (Direct.andThen step after) (Direct.andThen step' after') := by
  intro w v renames finds finds'
  obtain ⟨alike, related⟩ := steps w v renames finds finds'
  exact ⟨alike, each _ _ related⟩

theorem leave {position size : Nat} (renames : w.Renames old new used v) :
    (Direct.leave position size w).Renames old new used (Direct.leave position size v) := by
  refine { renames with active := ?_, running := ?_, numbered := fun other => ?_ }
  · exact (congrArg List.tail renames.active).trans List.map_tail.symm
  · exact fun name inside => renames.running (List.mem_of_mem_tail inside)
  · unfold Direct.leave
    dsimp only
    split
    · rfl
    · exact renames.numbered other

variable {body body' second second' : Direct Unit}

section

variable (bodies : c.body.Renames old new c'.body) (avoids : c.body.Avoids new)
  (inside : Mirrors old new used body body')

include bodies avoids inside

theorem whileLoop : Mirrors old new used (Direct.whileLoop t c body) (Direct.whileLoop t c' body') :=
  passes (fun _ => test bodies avoids) (fun _ => inside.bind fun _ => value _) _ _

theorem forLoop (differ : old ≠ new) :
    Mirrors old new used (Direct.forLoop t c body) (Direct.forLoop t c' body') := by
  unfold Direct.forLoop
  generalize c.body = before at bodies avoids
  generalize c'.body = after at bodies
  cases bodies with
  | range range =>
      have index : new ∉ range.index.names := fun inside => avoids (LoopRange.mem_names.mpr (.inl inside))
      refine look fun w v renames => ?_
      refine require (LoopRange.bounds_rename renames.objects avoids) (fun bounds _ same => ?_) w v
        renames
      subst same
      refine passes (fun _ => value _) (fun number => look fun w v renames => ?_) _ _
      refine require (Operand.assign_rename renames.objects index differ number)
        (fun objects objects' stores => ?_) w v renames
      exact (withObjects stores).bind fun _ => inside.bind fun _ => value _
  | _ => exact value _

theorem solverLoop (fresh : new ∉ used) (starts : ∀ solver ∈ c.starts?, solver ∈ used)
    (position size : Nat) :
    Mirrors old new used (Direct.solverLoop t position size c body)
      (Direct.solverLoop t position size c' body') := by
  unfold Direct.solverLoop
  unfold Command.starts? at starts
  generalize c.body = before at bodies avoids starts
  generalize c'.body = after at bodies
  cases bodies with
  | solverLoop l =>
      have member : l.solver ∈ used := starts l.solver rfl
      refine (startSolver fresh member).bind fun _ => ?_
      refine andThen (passes (fun _ => value _) (fun _ => inside.bind fun _ => ?_) _ _)
        fun w v renames => leave renames
      have mode : (l.rename old new).mode = l.mode := rfl
      by_cases guess : l.mode = .runInitialGuess
      · rw [if_pos guess, if_pos (mode.trans guess)]
        exact value _
      · rw [if_neg guess, if_neg (mode ▸ guess)]
        exact (advance fresh member).bind fun _ => value _
  | _ => exact value _

theorem block (kinds : c'.kind = c.kind) (differ : old ≠ new) (fresh : new ∉ used)
    (starts : ∀ solver ∈ c.starts?, solver ∈ used) (position size : Nat) :
    Mirrors old new used (Direct.block t position size c body)
      (Direct.block t position size c' body') := by
  unfold Direct.block
  rw [kinds]
  refine count.bind fun _ => ?_
  split
  · refine (test bodies avoids).bind fun holds => ?_
    split
    · exact inside
    · exact value _
  · exact whileLoop bodies avoids inside
  · exact forLoop bodies avoids inside differ
  · exact solverLoop bodies avoids inside fresh starts position size
  · exact solverLoop bodies avoids inside fresh starts position size
  · exact value _

theorem choice (inSecond : Mirrors old new used second second') :
    Mirrors old new used (Direct.choice t c body second) (Direct.choice t c' body' second') := by
  refine count.bind fun _ => (test bodies avoids).bind fun holds => ?_
  split
  · exact inside
  · exact inSecond

end

end Mirrors

end Direct

end MissionScript
