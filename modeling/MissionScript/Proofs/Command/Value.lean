import MissionScript.Command.Reference
import MissionScript.Proofs.Objects.Table
import MissionScript.Proofs.Step
import MissionScript.Proofs.Text

/-!
# Values over known objects

What can go wrong when a command computes a value or writes one: if all objects that it names exist,
none is found to be missing. Writing a value keeps every object and its type.
-/

namespace MissionScript

/-! ## Names -/

theorem Expression.mem_names {e : Expression} {name : Text} :
    name ∈ e.names ↔ ∃ o ∈ e.operands, name ∈ o.names := by
  rw [names, Text.mem_foldl_addNames]
  simp

theorem Condition.mem_names {c : Condition} {name : Text} :
    name ∈ c.names ↔ ∃ e ∈ c.expressions, name ∈ e.names := by
  rw [names, Text.mem_foldl_addNames]
  simp

theorem LoopRange.mem_names {r : LoopRange} {name : Text} :
    name ∈ r.names ↔ name ∈ r.index.names ∨ ∃ e ∈ r.expressions, name ∈ e.names := by
  rw [names, Text.mem_foldl_addNames]

theorem Constraint.mem_names {c : Constraint} {name : Text} :
    name ∈ c.names ↔ name ∈ c.operand.names ∨ name ∈ c.bound.names := by
  rw [names, Text.mem_addNames]

/-! ## Failing outcomes -/

/-- If there is an error, it is one of these. -/
def Outcome.Only {ε α : Type} (p : ε → Prop) (x : Except ε α) : Prop := ∀ e, x = .error e → p e

namespace Outcome.Only

variable {ε ε' α β : Type} {p : ε → Prop} {x : Except ε α}

theorem ok (value : α) : Only p (.ok value) := by
  intro e failed
  cases failed

theorem error {e : ε} (holds : p e) : Only p (.error e : Except ε α) := by
  intro _ same
  cases same
  exact holds

theorem bind {f : α → Except ε β} (first : Only p x) (rest : ∀ value, x = .ok value → Only p (f value)) :
    Only p (x >>= f) := by
  cases x with
  | error e =>
      intro _ same
      cases same
      exact first e rfl
  | ok value => exact rest value rfl

theorem map {f : α → β} (only : Only p x) : Only p (x.map f) := by
  cases x with
  | error e => exact error (only e rfl)
  | ok value => exact ok _

end Outcome.Only

/-- What can still go wrong where all objects exist and nothing is written to a number. -/
def ValueError.isDynamic : ValueError → Bool
  | undefined _ | assignToNumber _ => false
  | _ => true

namespace Store

variable {store next : Store} {name : Text}

/-- All these objects exist. -/
def Knows (store : Store) (names : List Text) : Prop := ∀ name ∈ names, store.contains name

/-- No object is missing that another store has. -/
def Keeps (store next : Store) : Prop := ∀ name, store.contains name → next.contains name

theorem Keeps.refl (store : Store) : store.Keeps store := fun _ held => held

/-- Two stores have objects of the same types under the same names. -/
def SameTypes (store next : Store) : Prop :=
  ∀ name, (next.get? name).map (·.typeName) = (store.get? name).map (·.typeName)

namespace SameTypes

theorem refl (store : Store) : store.SameTypes store := fun _ => rfl

theorem trans {last : Store} (first : store.SameTypes next) (second : next.SameTypes last) :
    store.SameTypes last := fun name => (second name).trans (first name)

theorem contains_eq (same : store.SameTypes next) (name : Text) :
    next.contains name = store.contains name := by
  have both := congrArg Option.isSome (same name)
  rw [Option.isSome_map, Option.isSome_map] at both
  exact both

theorem keeps (same : store.SameTypes next) : store.Keeps next :=
  fun name held => (same.contains_eq name).trans held

end SameTypes

theorem arraySize_dynamic (known : store.contains name) :
    Outcome.Only (·.isDynamic) (store.arraySize name) := by
  obtain ⟨object, held⟩ := Table.contains_iff.mp known
  rw [arraySize, held]
  dsimp only
  split
  · exact .ok _
  · exact .error rfl

theorem variableNamed_dynamic (known : store.contains name) :
    Outcome.Only (·.isDynamic) (store.variableNamed name) := by
  obtain ⟨object, held⟩ := Table.contains_iff.mp known
  rw [variableNamed, held]
  dsimp only
  split
  · exact .ok _
  · exact .error rfl

theorem checkCell_dynamic (array : Text) (size : Nat × Nat) (row column : Nat) :
    Outcome.Only (·.isDynamic) (checkCell array size row column) := by
  unfold checkCell
  split
  · exact .error rfl
  · exact .ok _

theorem cellOfIndex_dynamic (array : Text) (size : Nat × Nat) (index : Nat) :
    Outcome.Only (·.isDynamic) (cellOfIndex array size index) := by
  unfold cellOfIndex
  split
  · exact checkCell_dynamic _ _ _ _
  · split
    · exact checkCell_dynamic _ _ _ _
    · exact .error rfl

theorem cellValue_dynamic (array : Text) (cell : Nat × Nat) :
    Outcome.Only (·.isDynamic) (store.cellValue array cell) := by
  unfold cellValue
  split
  · exact .ok _
  · exact .error rfl

theorem setParameter_dynamic (known : store.contains name) (field : Text) (value : Float) :
    Outcome.Only (·.isDynamic) (store.setParameter name field value) := by
  obtain ⟨object, held⟩ := Table.contains_iff.mp known
  rw [setParameter, modify?, held]
  exact .ok _

/-- Setting a parameter keeps every object and its type. -/
theorem sameTypes_setParameter {field : Text} {value : Float}
    (written : store.setParameter name field value = .ok next) : store.SameTypes next := by
  unfold setParameter at written
  split at written
  · rename_i changed
    cases written
    obtain ⟨object, held, rfl⟩ := Option.map_eq_some_iff.mp changed
    intro other
    rw [Table.get?_insert]
    split
    · rename_i here
      rw [here, held]
      rfl
    · rfl
  · cases written

end Store

theorem indexOf_dynamic (value : Float) : Outcome.Only (·.isDynamic) (indexOf value) := by
  unfold indexOf
  split
  · exact .ok _
  · exact .error rfl

namespace Operand

variable {store next : Store}

/-- The value of an operand over known objects. -/
theorem value_dynamic {o : Operand} (known : store.Knows o.names) :
    Outcome.Only (·.isDynamic) (o.value store) := by
  induction o with
  | number value => exact .ok _
  | var name =>
      refine .bind (Store.variableNamed_dynamic (known name (List.mem_singleton_self _))) ?_
      exact fun _ _ => .ok _
  | parameter owner field =>
      obtain ⟨object, held⟩ := Table.contains_iff.mp (known owner (List.mem_singleton_self _))
      rw [value, held]
      dsimp only
      split
      · exact .ok _
      · exact .error rfl
  | element array index ih =>
      obtain ⟨own, inner⟩ := List.forall_mem_cons.mp known
      refine .bind (Store.arraySize_dynamic own) fun size _ => ?_
      refine .bind (ih inner) fun number _ => ?_
      refine .bind (indexOf_dynamic number) fun index _ => ?_
      exact .bind (Store.cellOfIndex_dynamic _ _ _) fun cell _ => Store.cellValue_dynamic array cell
  | cell array row column rowIH columnIH =>
      obtain ⟨own, inner⟩ := List.forall_mem_cons.mp known
      obtain ⟨ofRow, ofColumn⟩ := List.forall_mem_append.mp inner
      refine .bind (Store.arraySize_dynamic own) fun size _ => ?_
      refine .bind (rowIH ofRow) fun number _ => ?_
      refine .bind (indexOf_dynamic number) fun row _ => ?_
      refine .bind (columnIH ofColumn) fun number _ => ?_
      refine .bind (indexOf_dynamic number) fun column _ => ?_
      exact .bind (Store.checkCell_dynamic _ _ _ _) fun cell _ => Store.cellValue_dynamic array cell

/-- Writing to an operand over known objects. -/
theorem assign_dynamic {o : Operand} (known : store.Knows o.names) (noNumber : o.isNumber = false)
    (new : Float) : Outcome.Only (·.isDynamic) (o.assign store new) := by
  cases o with
  | number value => cases noNumber
  | var name =>
      have own := known name (List.mem_singleton_self _)
      exact .bind (Store.variableNamed_dynamic own) fun _ _ => Store.setParameter_dynamic own _ _
  | parameter owner field =>
      exact Store.setParameter_dynamic (known owner (List.mem_singleton_self _)) field new
  | element array index =>
      obtain ⟨own, inner⟩ := List.forall_mem_cons.mp known
      refine .bind (Store.arraySize_dynamic own) fun size _ => ?_
      refine .bind (value_dynamic inner) fun number _ => ?_
      refine .bind (indexOf_dynamic number) fun index _ => ?_
      exact .bind (Store.cellOfIndex_dynamic _ _ _) fun cell _ => Store.setParameter_dynamic own _ new
  | cell array row column =>
      obtain ⟨own, inner⟩ := List.forall_mem_cons.mp known
      obtain ⟨ofRow, ofColumn⟩ := List.forall_mem_append.mp inner
      refine .bind (Store.arraySize_dynamic own) fun size _ => ?_
      refine .bind (value_dynamic ofRow) fun number _ => ?_
      refine .bind (indexOf_dynamic number) fun row _ => ?_
      refine .bind (value_dynamic ofColumn) fun number _ => ?_
      refine .bind (indexOf_dynamic number) fun column _ => ?_
      exact .bind (Store.checkCell_dynamic _ _ _ _) fun cell _ => Store.setParameter_dynamic own _ new

/-- Writing to an operand keeps every object and its type. -/
theorem sameTypes_assign {o : Operand} {new : Float} (written : o.assign store new = .ok next) :
    store.SameTypes next := by
  cases o with
  | number value => cases written
  | var name =>
      obtain ⟨_, _, written⟩ := Outcome.bind_eq_ok_iff.mp written
      exact Store.sameTypes_setParameter written
  | parameter owner field => exact Store.sameTypes_setParameter written
  | element array index =>
      obtain ⟨_, _, written⟩ := Outcome.bind_eq_ok_iff.mp written
      obtain ⟨_, _, written⟩ := Outcome.bind_eq_ok_iff.mp written
      obtain ⟨_, _, written⟩ := Outcome.bind_eq_ok_iff.mp written
      obtain ⟨_, _, written⟩ := Outcome.bind_eq_ok_iff.mp written
      exact Store.sameTypes_setParameter written
  | cell array row column =>
      obtain ⟨_, _, written⟩ := Outcome.bind_eq_ok_iff.mp written
      obtain ⟨_, _, written⟩ := Outcome.bind_eq_ok_iff.mp written
      obtain ⟨_, _, written⟩ := Outcome.bind_eq_ok_iff.mp written
      obtain ⟨_, _, written⟩ := Outcome.bind_eq_ok_iff.mp written
      obtain ⟨_, _, written⟩ := Outcome.bind_eq_ok_iff.mp written
      obtain ⟨_, _, written⟩ := Outcome.bind_eq_ok_iff.mp written
      exact Store.sameTypes_setParameter written

end Operand

theorem MathOperator.apply_dynamic (op : MathOperator) (a b : Float) :
    Outcome.Only (·.isDynamic) (op.apply a b) := by
  unfold apply
  split
  · exact .ok _
  · exact .ok _
  · exact .ok _
  · split
    · exact .error rfl
    · exact .ok _
  · exact .ok _

namespace Expression

variable {store next : Store}

theorem value_of_operands {e : Expression} (known : ∀ o ∈ e.operands, store.Knows o.names) :
    Outcome.Only (·.isDynamic) (e.value store) := by
  induction e with
  | operand o => exact Operand.value_dynamic (known o (List.mem_singleton_self _))
  | negate e ih => exact .bind (ih known) fun _ _ => .ok _
  | call f e ih => exact .bind (ih known) fun _ _ => .ok _
  | binary op left right leftIH rightIH =>
      obtain ⟨ofLeft, ofRight⟩ := List.forall_mem_append.mp known
      refine .bind (leftIH ofLeft) fun a _ => ?_
      exact .bind (rightIH ofRight) fun b _ => op.apply_dynamic a b

/-- The value of an expression over known objects. -/
theorem value_dynamic {e : Expression} (known : store.Knows e.names) :
    Outcome.Only (·.isDynamic) (e.value store) :=
  value_of_operands fun o member name inside => known name (mem_names.mpr ⟨o, member, inside⟩)

theorem assignTo_dynamic {e : Expression} {target : Operand} (known : store.Knows e.names)
    (knownTarget : store.Knows target.names) (noNumber : target.isNumber = false) :
    Outcome.Only (·.isDynamic) (e.assignTo store target) := by
  refine .bind (value_dynamic known) fun new _ => ?_
  exact .bind (Operand.assign_dynamic knownTarget noNumber new) fun _ _ => .ok _

theorem sameTypes_assignTo {e : Expression} {target : Operand} {new : Float}
    (written : e.assignTo store target = .ok (new, next)) : store.SameTypes next := by
  obtain ⟨value, _, written⟩ := Outcome.bind_eq_ok_iff.mp written
  obtain ⟨store', written, same⟩ := Outcome.bind_eq_ok_iff.mp written
  cases same
  exact Operand.sameTypes_assign written

end Expression

/-- The truth of a condition over known objects. -/
theorem Condition.value_dynamic {store : Store} {c : Condition} (known : store.Knows c.names) :
    Outcome.Only (·.isDynamic) (c.value store) := by
  have each : ∀ comparison ∈ c.comparisons,
      Outcome.Only (·.isDynamic) (comparison.value store) := by
    intro comparison member
    have ofSide : ∀ e ∈ [comparison.left, comparison.right], store.Knows e.names := by
      intro e side name inside
      exact known name (mem_names.mpr ⟨e, List.mem_flatMap.mpr ⟨comparison, member, side⟩, inside⟩)
    refine .bind (Expression.value_dynamic (ofSide _ (by simp))) fun _ _ => ?_
    exact .bind (Expression.value_dynamic (ofSide _ (by simp))) fun _ _ => .ok _
  obtain ⟨first, others⟩ := List.forall_mem_cons.mp each
  refine .bind first fun result evaluated => ?_
  clear evaluated
  generalize c.rest = rest at others
  induction rest generalizing result with
  | nil => exact .ok _
  | cons entry rest ih =>
      obtain ⟨ofEntry, behind⟩ := List.forall_mem_cons.mp others
      rw [List.foldlM_cons]
      exact .bind (.bind ofEntry fun _ _ => .ok _) fun result _ => ih result behind

/-- The bounds of a range over known objects. -/
theorem LoopRange.bounds_dynamic {store : Store} {r : LoopRange} (known : store.Knows r.names) :
    Outcome.Only (·.isDynamic) (r.bounds store) := by
  have each : ∀ e ∈ r.expressions, Outcome.Only (·.isDynamic) (e.value store) := fun e member =>
    Expression.value_dynamic fun name inside => known name (mem_names.mpr (.inr ⟨e, member, inside⟩))
  have ended (start step : Float) : Outcome.Only (·.isDynamic) (do
      let stop ← r.stop.value store
      if step == 0 then throw .zeroStep
      return (⟨start, step, stop⟩ : LoopBounds)) := by
    refine .bind (each _ (by simp [expressions])) fun stop _ => ?_
    split
    · exact .error rfl
    · exact .ok _
  refine .bind (each _ (by simp [expressions])) fun start _ => ?_
  dsimp only
  cases step : r.step with
  | none => exact ended start 1
  | some e =>
      exact .bind (each e (by simp [expressions, step])) fun step _ => ended start step

theorem Constraint.value_dynamic {store : Store} {c : Constraint} (known : store.Knows c.names) :
    Outcome.Only (·.isDynamic) (c.value store) := by
  refine .bind (Operand.value_dynamic fun name inside => known name (mem_names.mpr (.inl inside)))
    fun operand _ => ?_
  exact .bind (Expression.value_dynamic fun name inside => known name (mem_names.mpr (.inr inside)))
    fun bound _ => .ok _

end MissionScript
