import MissionScript.Proofs.Objects.Renaming

/-!
# Evaluation and renaming commute

An object gets a new name in the store and in what refers to it. Expressions keep their values, and an
assignment in the renamed store ends where renaming ends after the assignment.
-/

namespace MissionScript

namespace Outcome.Alike

variable {ε ε' α : Type} {x : Except ε α} {x' : Except ε' α}

/-- Where one of two outcomes with equal values succeeds, the other one succeeds with its value. -/
theorem eq_ok_iff (alike : Alike Eq x x') (value : α) : x' = .ok value ↔ x = .ok value := by
  cases alike with
  | ok same => rw [same, Except.ok.injEq, Except.ok.injEq]
  | error e e' => exact ⟨nofun, nofun⟩

theorem fails_iff (alike : Alike Eq x x') : (∃ e', x' = .error e') ↔ ∃ e, x = .error e := by
  cases alike with
  | ok same => exact ⟨nofun, nofun⟩
  | error e e' => exact ⟨fun _ => ⟨e, rfl⟩, fun _ => ⟨e', rfl⟩⟩

end Outcome.Alike

namespace Store

variable {old new : Text} {s : Store}

/-- An object can be renamed to a name that is not taken. -/
theorem exists_rename? (there : s.contains old) (free : ¬ s.contains new) :
    old ≠ new ∧ ∃ t, rename? s old new = some (t, true) ∧ Renames old new s t := by
  have differ : old ≠ new := fun same => free (same ▸ there)
  obtain ⟨object, held⟩ := Table.contains_iff.mp there
  have renamed : rename? s old new = some ((s.erase old).insert new object, true) := by
    rw [rename?, if_neg differ, if_neg free, held]
  exact ⟨differ, _, renamed, renames_of_rename? differ there renamed⟩

/-- Renaming an existing object to a name that is neither taken nor referred to commutes with the
evaluation of every expression and with every assignment. -/
theorem rename_commutes (there : s.contains old) (free : ¬ s.contains new) :
    ∃ t, s.rename? old new = some (t, true) ∧
      (∀ e : Expression, new ∉ e.names →
        (∀ value, (e.rename old new).value t = .ok value ↔ e.value s = .ok value) ∧
        ((∃ failure, (e.rename old new).value t = .error failure) ↔
          ∃ failure, e.value s = .error failure)) ∧
      ∀ (target : Operand) (e : Expression), new ∉ target.names → new ∉ e.names →
        (∀ value s', e.assignTo s target = .ok (value, s') →
          ∃ t', (e.rename old new).assignTo t (target.rename old new) = .ok (value, t') ∧
            s'.rename? old new = some (t', true)) ∧
        ((∃ failure, (e.rename old new).assignTo t (target.rename old new) = .error failure) ↔
          ∃ failure, e.assignTo s target = .error failure) := by
  obtain ⟨differ, t, renamed, renames⟩ := exists_rename? there free
  refine ⟨t, renamed, fun e fresh => ?_, fun target e freshTarget fresh => ?_⟩
  · have alike := Expression.value_rename renames fresh
    exact ⟨alike.eq_ok_iff, alike.fails_iff⟩
  · have alike := Expression.assignTo_rename renames differ fresh freshTarget
    generalize e.assignTo s target = before at alike
    generalize (e.rename old new).assignTo t (target.rename old new) = after at alike
    cases alike with
    | error failure failure' => exact ⟨nofun, fun _ => ⟨failure, rfl⟩, fun _ => ⟨failure', rfl⟩⟩
    | @ok assigned assigned' related =>
        obtain ⟨sameValue, stores⟩ := related
        refine ⟨fun value s' wrote => ?_, nofun, nofun⟩
        cases wrote
        exact ⟨assigned'.2, congrArg Except.ok (Prod.ext sameValue rfl), rename?_of_renames differ stores⟩

/-- An array, the variable that indexes it, and an assignment `A(i) = A(i) + i`. -/
theorem rename_commutes_element :
    let index := (Object.ofType variableType).setParameter valueParameter 2
    let store : Store := .ofList [("A".toList, .array 1 3), ("i".toList, index)]
    let cell := Operand.element "A".toList (.var "i".toList)
    let sum := Expression.binary .add (.operand cell) (.operand (.var "i".toList))
    ∃ t, store.rename? "A".toList "B".toList = some (t, true) ∧
      (∀ value, (sum.rename "A".toList "B".toList).value t = .ok value ↔ sum.value store = .ok value) ∧
      ∀ value s', sum.assignTo store cell = .ok (value, s') →
        ∃ t', (sum.rename "A".toList "B".toList).assignTo t (cell.rename "A".toList "B".toList) =
            .ok (value, t') ∧ s'.rename? "A".toList "B".toList = some (t', true) := by
  intro index store cell sum
  obtain ⟨t, renamed, values, assignments⟩ :=
    rename_commutes (show store.contains "A".toList by rfl)
      (show ¬ store.contains "B".toList from Bool.eq_false_iff.mp (by rfl))
  exact ⟨t, renamed, (values sum (by decide)).1, (assignments cell sum (by decide) (by decide)).1⟩

end Store

end MissionScript
