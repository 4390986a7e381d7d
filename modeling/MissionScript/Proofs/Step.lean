/-!
# Steps that can fail

Drafting, editing and running are steps on a state that can fail and keep what they have written by
then. Reading is a chain of outcomes without a state. These lemmas take both apart at their binds.
-/

namespace MissionScript

namespace Step

variable {ε σ α β : Type} {step : ExceptT ε (StateM σ) α} {next : α → ExceptT ε (StateM σ) β}
  {value : α} {error : ε} {s t : σ}

/-- After a step that succeeds the next one takes its value and its state. -/
theorem bind_ok (ran : step s = (.ok value, t)) : (step >>= next) s = next value t := by
  change ExceptT.bindCont next (step s).1 (step s).2 = _
  rw [ran]
  rfl

/-- A step that fails is the last one. -/
theorem bind_error (ran : step s = (.error error, t)) : (step >>= next) s = (.error error, t) := by
  change ExceptT.bindCont next (step s).1 (step s).2 = _
  rw [ran]
  rfl

@[simp] theorem get_bind (next : σ → ExceptT ε (StateM σ) β) : (get >>= next) s = next s s := rfl

@[simp] theorem modify_bind (change : σ → σ) (next : PUnit → ExceptT ε (StateM σ) β) :
    (modify change >>= next) s = next ⟨⟩ (change s) := rfl

@[simp] theorem set_bind (new : σ) (next : PUnit → ExceptT ε (StateM σ) β) :
    (set new >>= next) s = next ⟨⟩ new := rfl

@[simp] theorem pure_apply (value : α) :
    (pure value : ExceptT ε (StateM σ) α) s = (.ok value, s) := rfl

@[simp] theorem throw_apply (error : ε) :
    (throw error : ExceptT ε (StateM σ) α) s = (.error error, s) := rfl

@[simp] theorem modify_apply (change : σ → σ) :
    (modify change : ExceptT ε (StateM σ) PUnit) s = (.ok ⟨⟩, change s) := rfl

@[simp] theorem set_apply (new : σ) :
    (set new : ExceptT ε (StateM σ) PUnit) s = (.ok ⟨⟩, new) := rfl

/-- If a chain of two steps succeeds, so does each of them. -/
theorem bind_eq_ok {result : β} (ran : (step >>= next) s = (.ok result, t)) :
    ∃ value middle, step s = (.ok value, middle) ∧ next value middle = (.ok result, t) := by
  cases first : step s with
  | mk outcome middle =>
      cases outcome with
      | error error =>
          rw [bind_error first] at ran
          cases ran
      | ok value =>
          rw [bind_ok first] at ran
          exact ⟨value, middle, rfl, ran⟩

theorem bind_eq_ok_iff {result : β} :
    (step >>= next) s = (.ok result, t) ↔
      ∃ value middle, step s = (.ok value, middle) ∧ next value middle = (.ok result, t) := by
  constructor
  · exact bind_eq_ok
  · rintro ⟨value, middle, first, second⟩
    rw [bind_ok first, second]

/-- The step keeps what holds of the state, whether it succeeds or fails. -/
def Keeps (holds : σ → Prop) (step : ExceptT ε (StateM σ) α) : Prop := ∀ s, holds s → holds (step s).2

theorem keeps_pure {holds : σ → Prop} (value : α) : Keeps holds (pure value : ExceptT ε (StateM σ) α) :=
  fun _ now => now

theorem keeps_throw {holds : σ → Prop} (error : ε) : Keeps holds (throw error : ExceptT ε (StateM σ) α) :=
  fun _ now => now

namespace Keeps

variable {holds : σ → Prop}

theorem bind (first : Keeps holds step) (rest : ∀ value, Keeps holds (next value)) :
    Keeps holds (step >>= next) := by
  intro s now
  have after := first s now
  cases ran : step s with
  | mk outcome middle =>
      rw [ran] at after
      cases outcome with
      | error error =>
          rw [bind_error ran]
          exact after
      | ok value =>
          rw [bind_ok ran]
          exact rest value middle after

theorem and {also : σ → Prop} (keeps : Keeps holds step) (keepsAlso : Keeps also step) :
    Keeps (fun s => holds s ∧ also s) step :=
  fun s now => ⟨keeps s now.1, keepsAlso s now.2⟩

/-- The step may look at a state for which this holds. -/
theorem look {next : σ → ExceptT ε (StateM σ) β} (each : ∀ s, holds s → holds (next s s).2) :
    Keeps holds (get >>= next) :=
  each

theorem change {f : σ → σ} (each : ∀ s, holds s → holds (f s)) :
    Keeps holds (modify f : ExceptT ε (StateM σ) PUnit) :=
  each

end Keeps

end Step

namespace Outcome

variable {ε ε' α β γ : Type} {x : Except ε α} {b : β}

theorem bind_eq_ok_iff {f : α → Except ε β} : (x >>= f) = .ok b ↔ ∃ a, x = .ok a ∧ f a = .ok b := by
  cases x with
  | error e =>
      constructor
      · intro failed
        cases failed
      · rintro ⟨a, failed, -⟩
        cases failed
  | ok a =>
      constructor
      · intro ran
        exact ⟨a, rfl, ran⟩
      · rintro ⟨_, same, ran⟩
        cases same
        exact ran

theorem mapError_eq_ok_iff {f : ε → ε'} {a : α} : x.mapError f = .ok a ↔ x = .ok a := by
  cases x with
  | error e =>
      constructor
      · intro failed
        cases failed
      · intro failed
        cases failed
  | ok value =>
      constructor
      · intro same
        cases same
        rfl
      · intro same
        cases same
        rfl

theorem map_eq_ok_iff {f : α → β} : x.map f = .ok b ↔ ∃ a, x = .ok a ∧ f a = b := by
  cases x <;> simp [Except.map]

theorem map_map (f : α → β) (g : β → γ) (x : Except ε α) : (x.map f).map g = x.map (g ∘ f) := by
  cases x <;> rfl

theorem exists_of_isOk (ok : x.isOk) : ∃ a, x = .ok a := by
  cases x with
  | error e => cases ok
  | ok a => exact ⟨a, rfl⟩

end Outcome

end MissionScript
