import MissionScript.Proofs.Command.Value

/-!
# Names after a renaming

What a renaming does to the objects that operands, expressions and commands name. Where the old name
does not occur, nothing changes.
-/

namespace MissionScript

/-- An object name with `new` in the place of `old`. -/
def Text.renamed (old new name : Text) : Text := if name = old then new else name

section

variable {old new name other : Text}

@[simp] theorem Text.renamed_old : Text.renamed old new old = new := if_pos rfl

theorem Text.renamed_of_ne (different : name ≠ old) : Text.renamed old new name = name :=
  if_neg different

theorem Text.renamed_ne_old (differ : old ≠ new) : Text.renamed old new name ≠ old := by
  unfold Text.renamed
  split
  · exact differ.symm
  · assumption

/-- Names that are not the new one stay apart. -/
theorem Text.renamed_inj (fresh : name ≠ new) (fresh' : other ≠ new) :
    Text.renamed old new name = Text.renamed old new other ↔ name = other := by
  constructor
  · intro same
    unfold Text.renamed at same
    split at same
    · rename_i here
      split at same
      · rename_i there
        exact here.trans there.symm
      · exact absurd same.symm fresh'
    · split at same
      · exact absurd same fresh
      · exact same
  · exact congrArg _

/-- The names in the members of a list, when each member is renamed. -/
theorem exists_mem_renamed {α : Type} {rename : α → α} {namesOf : α → List Text}
    (each : ∀ member name, name ∈ namesOf (rename member) ↔
      name ∈ (namesOf member).map (Text.renamed old new)) {members : List α} :
    (∃ member ∈ members.map rename, name ∈ namesOf member) ↔
      ∃ own, (∃ member ∈ members, own ∈ namesOf member) ∧ Text.renamed old new own = name := by
  constructor
  · rintro ⟨_, mapped, inside⟩
    obtain ⟨member, listed, rfl⟩ := List.mem_map.mp mapped
    obtain ⟨own, named, same⟩ := List.mem_map.mp ((each member name).mp inside)
    exact ⟨own, ⟨member, listed, named⟩, same⟩
  · rintro ⟨own, ⟨member, listed, named⟩, rfl⟩
    exact ⟨_, List.mem_map_of_mem listed, (each member _).mpr (List.mem_map_of_mem named)⟩

end

/-! ## Operands and expressions -/

namespace Operand

variable {old new : Text}

theorem names_rename (o : Operand) : (o.rename old new).names = o.names.map (Text.renamed old new) := by
  induction o with
  | number value => rfl
  | var name => rfl
  | parameter owner field => rfl
  | element array index ih => simp only [rename, names, ih, List.map_cons, Text.renamed]
  | cell array row column rowIH columnIH =>
      simp only [rename, names, rowIH, columnIH, List.map_cons, List.map_append, List.cons_append,
        Text.renamed]

theorem rename_of_not_mem {o : Operand} (absent : old ∉ o.names) : o.rename old new = o := by
  induction o with
  | number value => rfl
  | var name =>
      have other : name ≠ old := fun same => absent (by simp [names, same])
      rw [rename, if_neg other]
  | parameter owner field =>
      have other : owner ≠ old := fun same => absent (by simp [names, same])
      rw [rename, if_neg other]
  | element array index ih =>
      simp only [names, List.mem_cons, not_or] at absent
      rw [rename, if_neg (Ne.symm absent.1), ih absent.2]
  | cell array row column rowIH columnIH =>
      simp only [names, List.cons_append, List.mem_cons, List.mem_append, not_or] at absent
      rw [rename, if_neg (Ne.symm absent.1), rowIH absent.2.1, columnIH absent.2.2]

end Operand

namespace Expression

variable {old new : Text}

theorem operands_rename (e : Expression) :
    (e.rename old new).operands = e.operands.map (·.rename old new) := by
  induction e with
  | operand o => rfl
  | negate e ih => exact ih
  | call f e ih => exact ih
  | binary op left right leftIH rightIH =>
      simp only [rename, operands, leftIH, rightIH, List.map_append]

theorem mem_names_rename {e : Expression} {name : Text} :
    name ∈ (e.rename old new).names ↔ name ∈ e.names.map (Text.renamed old new) := by
  have each (o : Operand) (name : Text) :
      name ∈ (o.rename old new).names ↔ name ∈ o.names.map (Text.renamed old new) := by
    rw [Operand.names_rename]
  rw [mem_names, operands_rename, exists_mem_renamed each, List.mem_map]
  simp only [mem_names]

theorem rename_of_operands {e : Expression} (absent : ∀ o ∈ e.operands, old ∉ o.names) :
    e.rename old new = e := by
  induction e with
  | operand o =>
      rw [rename, Operand.rename_of_not_mem (absent o (List.mem_singleton_self _))]
  | negate e ih => rw [rename, ih absent]
  | call f e ih => rw [rename, ih absent]
  | binary op left right leftIH rightIH =>
      obtain ⟨ofLeft, ofRight⟩ := List.forall_mem_append.mp absent
      rw [rename, leftIH ofLeft, rightIH ofRight]

theorem rename_of_not_mem {e : Expression} (absent : old ∉ e.names) : e.rename old new = e :=
  rename_of_operands fun o listed inside => absent (mem_names.mpr ⟨o, listed, inside⟩)

end Expression

/-! ## Conditions and ranges -/

namespace Condition

variable {old new : Text}

theorem comparisons_rename (c : Condition) :
    (c.rename old new).comparisons = c.comparisons.map (·.rename old new) := by
  simp only [comparisons, rename, List.map_cons, List.map_map]
  rfl

theorem expressions_rename (c : Condition) :
    (c.rename old new).expressions = c.expressions.map (·.rename old new) := by
  rw [expressions, expressions, comparisons_rename, List.flatMap_map, List.map_flatMap]
  rfl

theorem mem_names_rename {c : Condition} {name : Text} :
    name ∈ (c.rename old new).names ↔ name ∈ c.names.map (Text.renamed old new) := by
  rw [mem_names, expressions_rename, exists_mem_renamed fun _ _ => Expression.mem_names_rename,
    List.mem_map]
  simp only [mem_names]

theorem rename_of_not_mem {c : Condition} (absent : old ∉ c.names) : c.rename old new = c := by
  have each : ∀ comparison ∈ c.comparisons, comparison.rename old new = comparison := by
    intro comparison member
    have side : ∀ e ∈ [comparison.left, comparison.right], e.rename old new = e := by
      intro e side
      refine Expression.rename_of_not_mem fun inside => absent (mem_names.mpr ⟨e, ?_, inside⟩)
      exact List.mem_flatMap.mpr ⟨comparison, member, side⟩
    rw [Comparison.rename, side _ (by simp), side _ (by simp)]
  obtain ⟨ofFirst, others⟩ := List.forall_mem_cons.mp each
  obtain ⟨first, rest⟩ := c
  have same : rest.map (fun joined => (joined.1, joined.2.rename old new)) = rest := by
    refine (List.map_congr_left fun joined member => ?_).trans (List.map_id rest)
    exact congrArg (Prod.mk joined.1) (others joined.2 (List.mem_map_of_mem member))
  rw [rename, ofFirst, same]

end Condition

namespace LoopRange

variable {old new : Text}

theorem expressions_rename (r : LoopRange) :
    (r.rename old new).expressions = r.expressions.map (·.rename old new) := by
  cases step : r.step <;> simp [expressions, rename, step]

theorem mem_names_rename {r : LoopRange} {name : Text} :
    name ∈ (r.rename old new).names ↔ name ∈ r.names.map (Text.renamed old new) := by
  rw [mem_names, expressions_rename, exists_mem_renamed fun _ _ => Expression.mem_names_rename,
    rename, Operand.names_rename, List.mem_map, List.mem_map]
  simp only [mem_names, or_and_right, exists_or]

theorem rename_of_not_mem {r : LoopRange} (absent : old ∉ r.names) : r.rename old new = r := by
  have index : r.index.rename old new = r.index :=
    Operand.rename_of_not_mem fun inside => absent (mem_names.mpr (.inl inside))
  have each : ∀ e ∈ r.expressions, e.rename old new = e := fun e listed =>
    Expression.rename_of_not_mem fun inside => absent (mem_names.mpr (.inr ⟨e, listed, inside⟩))
  obtain ⟨_, start, step, stop⟩ := r
  have ofStep : step.map (·.rename old new) = step := by
    cases step with
    | none => rfl
    | some e => exact congrArg some (each e (by simp [expressions]))
  dsimp only at index
  rw [rename, index, each start (by simp [expressions]), each stop (by simp [expressions]), ofStep]

end LoopRange

/-! ## Commands -/

/-- The arguments of a command before and after a renaming. What calls and keywords without behavior
hold, and what results are called, makes no difference to a run. -/
inductive CommandBody.Renames (old new : Text) : CommandBody → CommandBody → Prop
  | structural : Renames old new .structural .structural
  | assignment (target : Operand) (expression : Expression) :
      Renames old new (.assignment target expression)
        (.assignment (target.rename old new) (expression.rename old new))
  | call (c c' : FunctionCall) : Renames old new (.call c) (.call c')
  | condition (c : Condition) : Renames old new (.condition c) (.condition (c.rename old new))
  | range (r : LoopRange) : Renames old new (.range r) (.range (r.rename old new))
  | solverLoop (l : SolverLoop) : Renames old new (.solverLoop l) (.solverLoop (l.rename old new))
  | objective (o : Objective) (name : Text) :
      Renames old new (.objective o) (.objective { o with
        solver := Text.renamed old new o.solver
        name
        operand := o.operand.rename old new })
  | constraint (c : Constraint) (name boundName : Text) :
      Renames old new (.constraint c) (.constraint { c with
        solver := Text.renamed old new c.solver
        name
        operand := c.operand.rename old new
        boundName
        bound := c.bound.rename old new })
  | generic (arguments arguments' : Text) :
      Renames old new (.generic arguments) (.generic arguments')

/-- The arguments refer to no object of this name, as far as a run looks at them. -/
def CommandBody.Avoids (name : Text) : CommandBody → Prop
  | .assignment target expression => name ∉ target.names ∧ name ∉ expression.names
  | .condition c => name ∉ c.names
  | .range r => name ∉ r.names
  | .solverLoop l => l.solver ≠ name
  | .objective o => o.solver ≠ name ∧ name ∉ o.operand.names
  | .constraint c => c.solver ≠ name ∧ name ∉ c.names
  | .structural | .call _ | .generic _ => True

theorem CommandBody.avoids_of_names? {body : CommandBody} {name : Text}
    (absent : ∀ names, body.names? .any = some names → name ∉ names) : body.Avoids name := by
  cases body with
  | assignment target expression =>
      have both := absent _ rfl
      rw [Text.mem_addNames, not_or] at both
      exact both
  | condition c => exact absent _ rfl
  | range r => exact absent _ rfl
  | solverLoop l => exact fun same => absent _ rfl (by rw [same]; exact List.mem_singleton_self _)
  | objective o =>
      have both := absent _ rfl
      rw [List.mem_cons, not_or] at both
      exact ⟨Ne.symm both.1, both.2⟩
  | constraint c =>
      have both := absent _ rfl
      rw [List.mem_cons, not_or] at both
      exact ⟨Ne.symm both.1, both.2⟩
  | structural => trivial
  | call c => trivial
  | generic arguments => trivial

/-- The command with `new` for the object name `old` where it occurs. -/
def Command.afterRename (objectType : ObjectType) (old new : Text) (c : Command) : Command :=
  (c.rename? objectType old new).getD c

section

variable {objectType : ObjectType} {old new : Text}

namespace CommandBody

/-- A body in which the old name does not occur is kept. -/
theorem Renames.getD_ite {body after : CommandBody} {occurs : Prop} [Decidable occurs]
    (made : Renames old new body after) (kept : ¬ occurs → after = body) :
    Renames old new body ((if occurs then some after else none).getD body) := by
  split
  · exact made
  · rename_i absent
    rwa [kept absent] at made

theorem renames_objective (o : Objective) :
    Renames old new (objective o) (((o.rename? .any old new).map objective).getD (objective o)) := by
  have any : (ObjectType.any == .any || ObjectType.any == .solver) = true := rfl
  have operands : (ObjectType.any != .solver) = true := rfl
  have operand : (if o.operand.names.contains old then o.operand.rename old new else o.operand) =
      o.operand.rename old new := by
    split
    · rfl
    · rename_i absent
      exact (Operand.rename_of_not_mem (by simpa using absent)).symm
  unfold Objective.rename?
  simp only [any, operands, Bool.true_and, operand, beq_iff_eq, apply_ite (Option.map objective),
    Option.map_some, Option.map_none]
  refine .getD_ite (.objective o _) fun absent => ?_
  simp only [Bool.or_eq_true, beq_iff_eq, not_or] at absent
  rw [← operand, if_neg absent.1, if_neg absent.2, if_neg absent.2]

theorem renames_constraint (c : Constraint) :
    Renames old new (constraint c) (((c.rename? .any old new).map constraint).getD (constraint c)) := by
  have any : (ObjectType.any == .any || ObjectType.any == .solver) = true := rfl
  have operands : (ObjectType.any != .solver) = true := rfl
  have operand : (if c.operand.names.contains old then c.operand.rename old new else c.operand) =
      c.operand.rename old new := by
    split
    · rfl
    · rename_i absent
      exact (Operand.rename_of_not_mem (by simpa using absent)).symm
  have bound : (if c.bound.names.contains old then c.bound.rename old new else c.bound) =
      c.bound.rename old new := by
    split
    · rfl
    · rename_i absent
      exact (Expression.rename_of_not_mem (by simpa using absent)).symm
  unfold Constraint.rename?
  simp only [any, operands, Bool.true_and, operand, bound, beq_iff_eq,
    apply_ite (Option.map constraint), Option.map_some, Option.map_none]
  refine .getD_ite (.constraint c _ _) fun absent => ?_
  simp only [Bool.or_eq_true, beq_iff_eq, not_or] at absent
  rw [← operand, ← bound, if_neg absent.1.1, if_neg absent.1.2, if_neg absent.1.2, if_neg absent.2,
    if_neg absent.2]

/-- A renaming among objects of any type reaches every name. -/
theorem renames_rename? (body : CommandBody) :
    Renames old new body ((body.rename? .any old new).getD body) := by
  cases body with
  | structural => exact .structural
  | assignment target expression =>
      refine .getD_ite (.assignment target expression) fun absent => ?_
      simp only [Bool.or_eq_true, List.contains_iff_mem, not_or] at absent
      rw [Operand.rename_of_not_mem absent.1, Expression.rename_of_not_mem absent.2]
  | call c =>
      dsimp only [rename?]
      cases c.rename? .any old new with
      | none => exact .call c c
      | some c' => exact .call c c'
  | condition c =>
      refine .getD_ite (.condition c) fun absent => ?_
      rw [Condition.rename_of_not_mem (by simpa using absent)]
  | range r =>
      refine .getD_ite (.range r) fun absent => ?_
      rw [LoopRange.rename_of_not_mem (by simpa using absent)]
  | solverLoop l =>
      refine .getD_ite (.solverLoop l) fun absent => ?_
      rw [SolverLoop.rename, if_neg absent]
  | objective o => exact renames_objective o
  | constraint c => exact renames_constraint c
  | generic arguments =>
      dsimp only [rename?]
      split
      · exact .generic _ _
      · exact .generic _ _

end CommandBody

namespace Command

variable (c : Command)

theorem afterRename_eq : c.afterRename objectType old new =
    match c.body.rename? objectType old new with
    | none => c
    | some body => { c with body, generating := Text.replaceWord old new c.generating } := by
  unfold afterRename rename?
  cases c.body.rename? objectType old new <;> rfl

@[simp] theorem kind_afterRename : (c.afterRename objectType old new).kind = c.kind := by
  rw [afterRename_eq]
  split <;> rfl

theorem renames_afterRename : c.body.Renames old new (c.afterRename .any old new).body := by
  have body : (c.afterRename .any old new).body = (c.body.rename? .any old new).getD c.body := by
    rw [afterRename_eq]
    cases c.body.rename? .any old new <;> rfl
  rw [body]
  exact c.body.renames_rename?

end Command

end

end MissionScript
