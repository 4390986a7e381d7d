import MissionScript.Proofs.Renaming.Names

/-!
# Values over renamed objects

Two stores that hold the same objects, one of them under a new name, give the same values to operands,
expressions and conditions that are renamed along, and keep holding the same objects when a value is
written.
-/

namespace MissionScript

/-! ## Outcomes alike -/

/-- Both fail, or both succeed with related values. -/
inductive Outcome.Alike {ε ε' α β : Type} (R : α → β → Prop) : Except ε α → Except ε' β → Prop
  | ok {a : α} {b : β} : R a b → Alike R (.ok a) (.ok b)
  | error (e : ε) (e' : ε') : Alike R (.error e) (.error e')

namespace Outcome.Alike

variable {ε ε' α α' β β' : Type} {x : Except ε α} {x' : Except ε' α'} {R : α → α' → Prop}
  {Q : β → β' → Prop}

theorem bind {f : α → Except ε β} {f' : α' → Except ε' β'} (first : Alike R x x')
    (rest : ∀ a a', R a a' → Alike Q (f a) (f' a')) : Alike Q (x >>= f) (x' >>= f') := by
  cases first with
  | ok related => exact rest _ _ related
  | error e e' => exact .error e e'

/-- Both go on with the same value. -/
theorem same {x' : Except ε' α} {f : α → Except ε β} {f' : α → Except ε' β'} (first : Alike Eq x x')
    (rest : ∀ a, Alike Q (f a) (f' a)) : Alike Q (x >>= f) (x' >>= f') :=
  first.bind fun a _ equal => equal ▸ rest a

theorem refl (x : Except ε α) : Alike Eq x x := by
  cases x with
  | error e => exact .error e e
  | ok a => exact .ok rfl

theorem isOk_eq (alike : Alike R x x') : x'.isOk = x.isOk := by
  cases alike with
  | ok _ => rfl
  | error e e' => rfl

end Outcome.Alike

/-! ## Stores -/

/-- The second store holds what the first one holds, the object of the old name under the new one. -/
structure Store.Renames (old new : Text) (s t : Store) : Prop where
  there : s.contains old
  fresh : s.get? new = none
  held : ∀ name, name ≠ new → Table.get? t (Text.renamed old new name) = s.get? name
  gone : t.get? old = none

namespace Store

variable {old new : Text} {s t : Store}

theorem renames_of_rename? {found : Bool} (differ : old ≠ new) (there : s.contains old)
    (renamed : rename? s old new = some (t, found)) : Renames old new s t := by
  obtain ⟨object, held⟩ := Table.contains_iff.mp there
  rw [rename?, if_neg differ, held] at renamed
  obtain ⟨free, same⟩ := Option.ite_none_left_eq_some.mp renamed
  cases same
  refine ⟨there, by simpa [Table.contains] using free, fun name other => ?_, ?_⟩
  · rw [Table.get?_insert, Table.get?_erase]
    by_cases here : name = old
    · rw [here, Text.renamed_old, if_pos rfl, held]
    · rw [Text.renamed_of_ne here, if_neg other, if_neg here]
  · rw [Table.get?_insert, if_neg differ, Table.get?_erase, if_pos rfl]

theorem rename?_of_renames (differ : old ≠ new) (renames : Renames old new s t) :
    rename? s old new = some (t, true) := by
  obtain ⟨object, held⟩ := Table.contains_iff.mp renames.there
  have free : ¬ s.contains new := by simp [Table.contains, renames.fresh]
  rw [rename?, if_neg differ, if_neg free, held]
  refine congrArg (fun store => some (store, true)) (Table.ext_get? fun name => ?_)
  rw [Table.get?_insert, Table.get?_erase]
  by_cases isNew : name = new
  · rw [if_pos isNew, isNew, ← held, ← renames.held old differ, Text.renamed_old]
  · rw [if_neg isNew]
    by_cases isOld : name = old
    · rw [if_pos isOld, isOld, renames.gone]
    · rw [if_neg isOld, ← renames.held name isNew, Text.renamed_of_ne isOld]

namespace Renames

variable (differ : old ≠ new) (renames : Renames old new s t) {name : Text} (other : name ≠ new)

include renames other

theorem contains_eq : Table.contains t (Text.renamed old new name) = s.contains name := by
  rw [Table.contains, renames.held name other, Table.contains]

include differ in
/-- Both stores hold a new object. -/
theorem insert (object : Object) :
    Renames old new (s.insert name object) (Table.insert t (Text.renamed old new name) object) where
  there := Table.contains_insert_of_contains renames.there
  fresh := by rw [Table.get?_insert, if_neg other.symm, renames.fresh]
  held found away := by
    rw [Table.get?_insert, Table.get?_insert, renames.held found away]
    simp only [Text.renamed_inj away other]
  gone := by rw [Table.get?_insert, if_neg (Text.renamed_ne_old differ).symm, renames.gone]

theorem arraySize : Outcome.Alike Eq (s.arraySize name) (t.arraySize (Text.renamed old new name)) := by
  unfold Store.arraySize
  rw [renames.held name other]
  split
  · exact .error _ _
  · split
    · exact .ok rfl
    · exact .error _ _

theorem variableNamed :
    Outcome.Alike Eq (s.variableNamed name) (t.variableNamed (Text.renamed old new name)) := by
  unfold Store.variableNamed
  rw [renames.held name other]
  split
  · exact .error _ _
  · split
    · exact .ok rfl
    · exact .error _ _

theorem cellValue (cell : Nat × Nat) :
    Outcome.Alike Eq (s.cellValue name cell) (t.cellValue (Text.renamed old new name) cell) := by
  unfold Store.cellValue Store.parameter?
  rw [renames.held name other]
  split
  · exact .ok rfl
  · exact .error _ _

include differ in
theorem setParameter (field : Text) (value : Float) :
    Outcome.Alike (Renames old new) (s.setParameter name field value)
      (t.setParameter (Text.renamed old new name) field value) := by
  unfold Store.setParameter modify?
  rw [renames.held name other]
  cases s.get? name with
  | none => exact .error _ _
  | some object => exact .ok (renames.insert differ other _)

end Renames

/-- The names of arrays are only part of errors. -/
theorem alike_checkCell (array array' : Text) (size : Nat × Nat) (row column : Nat) :
    Outcome.Alike Eq (checkCell array size row column) (checkCell array' size row column) := by
  unfold checkCell
  split
  · exact .error _ _
  · exact .ok rfl

theorem alike_cellOfIndex (array array' : Text) (size : Nat × Nat) (index : Nat) :
    Outcome.Alike Eq (cellOfIndex array size index) (cellOfIndex array' size index) := by
  unfold cellOfIndex
  split
  · exact alike_checkCell ..
  · split
    · exact alike_checkCell ..
    · exact .error _ _

end Store

/-! ## Values -/

variable {old new : Text} {s t : Store}

namespace Operand

variable {o : Operand} (renames : Store.Renames old new s t) (fresh : new ∉ o.names)

include renames fresh

theorem value_rename : Outcome.Alike Eq (o.value s) ((o.rename old new).value t) := by
  induction o with
  | number value => exact .ok rfl
  | var name =>
      have other : name ≠ new := fun same => fresh (by simp [names, same])
      exact (renames.variableNamed other).same fun object => .refl _
  | parameter owner field =>
      have other : owner ≠ new := fun same => fresh (by simp [names, same])
      have held := renames.held owner other
      rw [Text.renamed] at held
      rw [rename, value, value, held]
      split
      · exact .error _ _
      · split
        · exact .ok rfl
        · exact .error _ _
  | element array index ih =>
      simp only [names, List.mem_cons, not_or] at fresh
      have other : array ≠ new := Ne.symm fresh.1
      refine (renames.arraySize other).same fun size => ?_
      refine (ih fresh.2).same fun number => ?_
      refine (Outcome.Alike.refl (indexOf number)).same fun index => ?_
      exact (Store.alike_cellOfIndex ..).same fun cell => renames.cellValue other cell
  | cell array row column rowIH columnIH =>
      simp only [names, List.cons_append, List.mem_cons, List.mem_append, not_or] at fresh
      have other : array ≠ new := Ne.symm fresh.1
      refine (renames.arraySize other).same fun size => ?_
      refine (rowIH fresh.2.1).same fun number => ?_
      refine (Outcome.Alike.refl (indexOf number)).same fun row => ?_
      refine (columnIH fresh.2.2).same fun number => ?_
      refine (Outcome.Alike.refl (indexOf number)).same fun column => ?_
      exact (Store.alike_checkCell ..).same fun cell => renames.cellValue other cell

theorem assign_rename (differ : old ≠ new) (value : Float) :
    Outcome.Alike (Store.Renames old new) (o.assign s value) ((o.rename old new).assign t value) := by
  cases o with
  | number value => exact .error _ _
  | var name =>
      have other : name ≠ new := fun same => fresh (by simp [names, same])
      exact (renames.variableNamed other).same fun _ => renames.setParameter differ other _ _
  | parameter owner field =>
      have other : owner ≠ new := fun same => fresh (by simp [names, same])
      exact renames.setParameter differ other field value
  | element array index =>
      simp only [names, List.mem_cons, not_or] at fresh
      have other : array ≠ new := Ne.symm fresh.1
      refine (renames.arraySize other).same fun size => ?_
      refine (value_rename renames fresh.2).same fun number => ?_
      refine (Outcome.Alike.refl (indexOf number)).same fun index => ?_
      exact (Store.alike_cellOfIndex ..).same fun cell => renames.setParameter differ other _ value
  | cell array row column =>
      simp only [names, List.cons_append, List.mem_cons, List.mem_append, not_or] at fresh
      have other : array ≠ new := Ne.symm fresh.1
      refine (renames.arraySize other).same fun size => ?_
      refine (value_rename renames fresh.2.1).same fun number => ?_
      refine (Outcome.Alike.refl (indexOf number)).same fun row => ?_
      refine (value_rename renames fresh.2.2).same fun number => ?_
      refine (Outcome.Alike.refl (indexOf number)).same fun column => ?_
      exact (Store.alike_checkCell ..).same fun cell => renames.setParameter differ other _ value

end Operand

namespace Expression

variable {e : Expression} (renames : Store.Renames old new s t)

include renames

theorem value_of_operands_rename (fresh : ∀ o ∈ e.operands, new ∉ o.names) :
    Outcome.Alike Eq (e.value s) ((e.rename old new).value t) := by
  induction e with
  | operand o => exact Operand.value_rename renames (fresh o (List.mem_singleton_self _))
  | negate e ih => exact (ih fresh).same fun _ => .refl _
  | call f e ih => exact (ih fresh).same fun _ => .refl _
  | binary op left right leftIH rightIH =>
      obtain ⟨ofLeft, ofRight⟩ := List.forall_mem_append.mp fresh
      refine (leftIH ofLeft).same fun a => ?_
      exact (rightIH ofRight).same fun b => .refl _

theorem value_rename (fresh : new ∉ e.names) :
    Outcome.Alike Eq (e.value s) ((e.rename old new).value t) :=
  value_of_operands_rename renames fun o listed inside => fresh (mem_names.mpr ⟨o, listed, inside⟩)

/-- An assignment writes the same value to the same object. -/
theorem assignTo_rename (differ : old ≠ new) {target : Operand} (fresh : new ∉ e.names)
    (freshTarget : new ∉ target.names) :
    Outcome.Alike (fun x y => y.1 = x.1 ∧ Store.Renames old new x.2 y.2) (e.assignTo s target)
      ((e.rename old new).assignTo t (target.rename old new)) := by
  refine (value_rename renames fresh).same fun value => ?_
  refine (Operand.assign_rename renames freshTarget differ value).bind fun _ _ renamed => ?_
  exact .ok ⟨rfl, renamed⟩

end Expression

theorem Condition.value_rename {c : Condition} (renames : Store.Renames old new s t)
    (fresh : new ∉ c.names) : Outcome.Alike Eq (c.value s) ((c.rename old new).value t) := by
  have each : ∀ comparison ∈ c.comparisons,
      Outcome.Alike Eq (comparison.value s) ((comparison.rename old new).value t) := by
    intro comparison member
    have side : ∀ e ∈ [comparison.left, comparison.right],
        Outcome.Alike Eq (e.value s) ((e.rename old new).value t) := by
      intro e side
      refine Expression.value_rename renames fun inside => fresh (mem_names.mpr ⟨e, ?_, inside⟩)
      exact List.mem_flatMap.mpr ⟨comparison, member, side⟩
    refine (side _ (by simp)).same fun left => ?_
    exact (side _ (by simp)).same fun right => .refl _
  obtain ⟨ofFirst, others⟩ := List.forall_mem_cons.mp each
  refine ofFirst.same fun result => ?_
  unfold rename
  dsimp only
  generalize c.rest = rest at others
  induction rest generalizing result with
  | nil => exact .ok rfl
  | cons entry rest ih =>
      obtain ⟨ofEntry, behind⟩ := List.forall_mem_cons.mp others
      rw [List.map_cons, List.foldlM_cons, List.foldlM_cons]
      exact (ofEntry.same fun _ => .refl _).same fun result => ih result behind

theorem LoopRange.bounds_rename {r : LoopRange} (renames : Store.Renames old new s t)
    (fresh : new ∉ r.names) : Outcome.Alike Eq (r.bounds s) ((r.rename old new).bounds t) := by
  have each : ∀ e ∈ r.expressions, Outcome.Alike Eq (e.value s) ((e.rename old new).value t) :=
    fun e listed => Expression.value_rename renames fun inside =>
      fresh (mem_names.mpr (.inr ⟨e, listed, inside⟩))
  have ended (start step : Float) : Outcome.Alike Eq
      (do
        let stop ← r.stop.value s
        if step == 0 then throw .zeroStep
        return (⟨start, step, stop⟩ : LoopBounds))
      (do
        let stop ← (r.stop.rename old new).value t
        if step == 0 then throw .zeroStep
        return (⟨start, step, stop⟩ : LoopBounds)) :=
    (each _ (by simp [expressions])).same fun stop => .refl _
  refine (each _ (by simp [expressions])).same fun start => ?_
  unfold rename
  dsimp only
  cases step : r.step with
  | none => exact ended start 1
  | some e => exact (each e (by simp [expressions, step])).same fun step => ended start step

theorem Constraint.value_rename {c c' : Constraint} (renames : Store.Renames old new s t)
    (fresh : new ∉ c.names) (kind : c'.kind = c.kind)
    (operand : c'.operand = c.operand.rename old new) (bound : c'.bound = c.bound.rename old new) :
    Outcome.Alike Eq (c.value s) (c'.value t) := by
  unfold value
  rw [kind, operand, bound]
  refine (Operand.value_rename renames fun inside => fresh (mem_names.mpr (.inl inside))).same
    fun left => ?_
  exact (Expression.value_rename renames fun inside => fresh (mem_names.mpr (.inr inside))).same
    fun right => .refl _

end MissionScript
