import MissionScript.Command.Reference
import MissionScript.Proofs.Renaming.Results

/-!
# Renaming and the bodies of commands

The renamed arguments of a command read as its renamed body, whatever the kind of the command.
-/

namespace MissionScript

open Lettered

variable {ρ : Renaming} {s t : Text}

theorem Renamed.eq_map_text {pieces pieces' : List Text}
    (related : List.Forall₂ (Renamed ρ false) pieces pieces') : pieces' = pieces.map ρ.text := by
  induction related with
  | nil => rfl
  | cons head tail ih => rw [head.eq_text, ih, List.map_cons]

namespace FunctionCall

/-- The inputs in the parentheses behind the name of a function. -/
def readInputs (arguments : Text) : Except ArgumentError (List Text) :=
  if arguments.isEmpty then .ok [] else argumentList .paren [','] arguments

/-- The outputs in front of a function call. -/
def readOutputs (outputs : Text) : Except ArgumentError (List Text) :=
  if outputs.head? == some '[' then argumentList .square [',', ' '] outputs
  else if outputs.isEmpty then .ok []
  else .ok [outputs]

theorem parse_eq (outputs signature : Text) :
    parse outputs signature =
      let name := Text.trim (signature.trim.takeWhile (· != '('))
      if !name.isIdentifier then .error (.badFunctionName name)
      else do
        let inputs ← readInputs (signature.trim.dropWhile (· != '('))
        let outputs ← readOutputs outputs.trim
        return { name, outputs, inputs } := by
  unfold parse readInputs readOutputs
  dsimp only
  rw [Text.drop_takeWhile]
  split
  · rfl
  split
  · split
    · rfl
    · split
      · rfl
      · rfl
  · split
    · rfl
    · split
      · rfl
      · rfl

theorem argumentList_renamed {family : Bracket} {delimiters : Text} {pieces : List Text}
    (separates : Separates (α := Char) (isDelimiter delimiters))
    (read : argumentList family delimiters s = .ok pieces) (related : Renamed ρ false s t) :
    argumentList family delimiters t = .ok (pieces.map ρ.text) := by
  unfold argumentList at read ⊢
  rw [Outcome.mapError_eq_ok_iff] at read ⊢
  obtain ⟨pieces', read', both⟩ := related.separateGroup separates read
  rw [read', Renamed.eq_map_text both]

theorem readInputs_renamed {inputs : List Text} (read : readInputs s = .ok inputs)
    (related : Renamed ρ false s t) : readInputs t = .ok (inputs.map ρ.text) := by
  unfold readInputs at read ⊢
  rw [related.isEmpty_eq]
  split at read
  · rename_i empty
    cases read
    rw [if_pos empty]
    rfl
  · rename_i filled
    rw [if_neg filled]
    exact argumentList_renamed (separates_isDelimiter (by decide) (by decide)) read related

theorem readOutputs_renamed {outputs : List Text} (read : readOutputs s = .ok outputs)
    (related : Renamed ρ false s t) : readOutputs t = .ok (outputs.map ρ.text) := by
  unfold readOutputs at read ⊢
  rw [related.isEmpty_eq, related.head?_beq rfl]
  split at read
  · rename_i bracketed
    rw [if_pos bracketed]
    exact argumentList_renamed (separates_isDelimiter (by decide) (by decide)) read related
  rename_i plain
  rw [if_neg plain]
  split at read
  · rename_i empty
    cases read
    rw [if_pos empty]
    rfl
  · rename_i filled
    cases read
    rw [if_neg filled, related.eq_text]
    rfl

/-- A renamed text reads as the renamed call. -/
theorem parse_renamed {outputs outputs' signature signature' : Text} {c : FunctionCall}
    (read : parse outputs signature = .ok c) (left : Renamed ρ false outputs outputs')
    (right : Renamed ρ false signature signature') :
    parse outputs' signature' = .ok
      { name := ρ.word false c.name
        outputs := c.outputs.map ρ.text
        inputs := c.inputs.map ρ.text } := by
  rw [parse_eq] at read ⊢
  have ⟨front, back⟩ := right.trim.span (p := (· != '(')) fun c word => by
    rw [bne_iff_ne]
    rintro rfl
    cases word
  dsimp only at read ⊢
  split at read
  · cases read
  rename_i named
  rw [Bool.not_eq_true, Bool.not_eq_false'] at named
  have name := front.trim.eq_word_of_isIdentifier named
  rw [name, Renaming.isIdentifier_word named]
  obtain ⟨ins, readIns, read⟩ := Outcome.bind_eq_ok_iff.mp read
  obtain ⟨outs, readOuts, read⟩ := Outcome.bind_eq_ok_iff.mp read
  cases read
  refine Outcome.bind_eq_ok_iff.mpr ⟨_, readInputs_renamed readIns back, ?_⟩
  exact Outcome.bind_eq_ok_iff.mpr ⟨_, readOutputs_renamed readOuts left.trim, rfl⟩

theorem eq_of_rename? {old new : Text} {c c' : FunctionCall}
    (renamed : c.rename? .any old new = some c') :
    c' = { name := if c.name = old then new else c.name
           outputs := c.outputs.map (Text.replaceWord old new)
           inputs := c.inputs.map (Text.replaceWord old new) } := by
  have any : (ObjectType.any == .any) = true := rfl
  have arguments : (ObjectType.any == .function) = false := rfl
  simp only [rename?, arguments, any, Bool.false_or, Bool.true_and, beq_iff_eq,
    Bool.false_eq_true, if_false] at renamed
  obtain ⟨-, made⟩ := Option.ite_none_right_eq_some.mp renamed
  cases made
  rfl

end FunctionCall

/-! ### Labels -/

theorem splitLabel_quoted {rest label behind : Text} (quote : s.trim = '\'' :: rest)
    (cut : rest.cutAt '\'' = some (label, behind)) : splitLabel s = (some label, behind.trim) := by
  unfold splitLabel
  simp only [quote, cut]

theorem splitLabel_open {rest : Text} (quote : s.trim = '\'' :: rest)
    (open_ : rest.cutAt '\'' = none) : splitLabel s = (none, s.trim) := by
  unfold splitLabel
  simp only [quote, open_]

theorem splitLabel_plain (plain : (s.trim.head? == some '\'') = false) :
    splitLabel s = (none, s.trim) := by
  unfold splitLabel
  dsimp only
  split
  · rename_i quote
    rw [quote] at plain
    cases plain
  · rfl

theorem splitLabel_renamed (related : Renamed ρ false s t)
    (kept : ∀ label ∈ (splitLabel s).1, ρ.text label = label) :
    (splitLabel t).1 = (splitLabel s).1 ∧ Renamed ρ false (splitLabel s).2 (splitLabel t).2 := by
  have trims := related.trim
  cases starts : s.trim.head? == some '\'' with
  | false =>
      rw [splitLabel_plain starts, splitLabel_plain ((trims.head?_beq rfl).trans starts)]
      exact ⟨rfl, trims⟩
  | true =>
      obtain ⟨rest, quote⟩ : ∃ rest, s.trim = '\'' :: rest := by
        rw [beq_iff_eq, List.head?_eq_some_iff] at starts
        exact starts
      have inside := trims
      rw [quote] at inside
      obtain ⟨rest', quote', following⟩ := inside.exists_cons rfl
      cases cut : Text.cutAt '\'' rest with
      | none =>
          rw [splitLabel_open quote cut, splitLabel_open quote' (following.cutAt_none rfl cut)]
          exact ⟨rfl, trims⟩
      | some x =>
          obtain ⟨label, behind⟩ := x
          obtain ⟨label', behind', cut', left, right⟩ := following.cutAt_some rfl cut
          rw [splitLabel_quoted quote cut] at kept ⊢
          rw [splitLabel_quoted quote' cut', left.eq_text, kept label rfl]
          exact ⟨rfl, right.trim⟩

/-! ### Bodies -/

namespace CommandBody

/-- The renaming touches nothing in the arguments but the names that the body knows. -/
def Renamable (ρ : Renaming) : CommandBody → Prop
  | structural => True
  | assignment _ expression => expression.Renamable ρ
  | call _ => True
  | condition c => c.Renamable ρ
  | range r => r.Renamable ρ
  | solverLoop loop => loop.Renamable ρ
  | objective o => RenamableName ρ o.operand o.name
  | constraint c => c.Renamable ρ
  | generic _ => True

section Readings

variable {body body' : CommandBody}

theorem condition_renamed (made : (Condition.parse s).map condition = .ok body)
    (renamable : body.Renamable ρ) (related : Renamed ρ false s t)
    (renamed : body.rename? .any ρ.old ρ.new = some body') :
    (Condition.parse t).map condition = .ok body' := by
  obtain ⟨c, read, rfl⟩ := Outcome.map_eq_ok_iff.mp made
  rw [rename?, Option.ite_none_right_eq_some] at renamed
  cases renamed.2
  exact Outcome.map_eq_ok_iff.mpr ⟨_, Condition.parse_renamed read renamable related, rfl⟩

theorem range_renamed (made : (LoopRange.parse s).map range = .ok body)
    (renamable : body.Renamable ρ) (related : Renamed ρ false s t)
    (renamed : body.rename? .any ρ.old ρ.new = some body') :
    (LoopRange.parse t).map range = .ok body' := by
  obtain ⟨r, read, rfl⟩ := Outcome.map_eq_ok_iff.mp made
  rw [rename?, Option.ite_none_right_eq_some] at renamed
  cases renamed.2
  exact Outcome.map_eq_ok_iff.mpr ⟨_, LoopRange.parse_renamed read renamable related, rfl⟩

theorem solverLoop_renamed (made : (SolverLoop.parse s).map solverLoop = .ok body)
    (renamable : body.Renamable ρ) (related : Renamed ρ false s t)
    (renamed : body.rename? .any ρ.old ρ.new = some body') :
    (SolverLoop.parse t).map solverLoop = .ok body' := by
  obtain ⟨loop, read, rfl⟩ := Outcome.map_eq_ok_iff.mp made
  have ⟨options, modes, values⟩ := renamable
  rw [rename?, Option.ite_none_right_eq_some] at renamed
  cases renamed.2
  refine Outcome.map_eq_ok_iff.mpr ⟨_, SolverLoop.parse_renamed read options modes related, ?_⟩
  rw [SolverLoop.renamed, Table.map_eq_self values, ρ.word_eq]
  rfl

theorem objective_renamed (made : (Objective.parse s).map objective = .ok body)
    (renamable : body.Renamable ρ) (related : Renamed ρ false s t)
    (renamed : body.rename? .any ρ.old ρ.new = some body') :
    (Objective.parse t).map objective = .ok body' := by
  obtain ⟨o, read, rfl⟩ := Outcome.map_eq_ok_iff.mp made
  obtain ⟨o', inner, rfl⟩ := Option.map_eq_some_iff.mp renamed
  exact Outcome.map_eq_ok_iff.mpr ⟨_, Objective.parse_renamed read renamable related inner, rfl⟩

theorem constraint_renamed (made : (Constraint.parse s).map constraint = .ok body)
    (renamable : body.Renamable ρ) (related : Renamed ρ false s t)
    (renamed : body.rename? .any ρ.old ρ.new = some body') :
    (Constraint.parse t).map constraint = .ok body' := by
  obtain ⟨c, read, rfl⟩ := Outcome.map_eq_ok_iff.mp made
  obtain ⟨c', inner, rfl⟩ := Option.map_eq_some_iff.mp renamed
  exact Outcome.map_eq_ok_iff.mpr ⟨_, Constraint.parse_renamed read renamable related inner, rfl⟩

/-- The renamed arguments of a keyword read as the renamed body. -/
theorem parse_renamed {kind : CommandKind} (read : parse kind s = .ok body)
    (renamable : body.Renamable ρ) (related : Renamed ρ false s t)
    (renamed : body.rename? .any ρ.old ρ.new = some body') : parse kind t = .ok body' := by
  unfold parse at read ⊢
  split at read
  · exact condition_renamed read renamable related renamed
  · exact condition_renamed read renamable related renamed
  · exact range_renamed read renamable related renamed
  · exact solverLoop_renamed read renamable related renamed
  · exact solverLoop_renamed read renamable related renamed
  · exact objective_renamed read renamable related renamed
  · exact constraint_renamed read renamable related renamed
  · cases read
    simp only [rename?, Option.ite_none_left_eq_some] at renamed
    cases renamed.2
    rw [related.trim.eq_text]
    rfl
  · split at read
    · cases read
      cases renamed
    · cases read

theorem parseCall_renamed {outputs outputs' signature signature' : Text}
    (made : (FunctionCall.parse outputs signature).map call = .ok body)
    (left : Renamed ρ false outputs outputs') (right : Renamed ρ false signature signature')
    (renamed : body.rename? .any ρ.old ρ.new = some body') :
    (FunctionCall.parse outputs' signature').map call = .ok body' := by
  obtain ⟨c, read, rfl⟩ := Outcome.map_eq_ok_iff.mp made
  obtain ⟨c', inner, rfl⟩ := Option.map_eq_some_iff.mp renamed
  have read' := FunctionCall.parse_renamed read left right
  rw [ρ.word_eq] at read'
  rw [FunctionCall.eq_of_rename? inner]
  exact Outcome.map_eq_ok_iff.mpr ⟨_, read', rfl⟩

theorem parseAssignment_renamed {target target' value value' : Text}
    (read : parseAssignment target value = .ok body) (renamable : body.Renamable ρ)
    (left : Renamed ρ false target target') (right : Renamed ρ false value value')
    (renamed : body.rename? .any ρ.old ρ.new = some body') :
    parseAssignment target' value' = .ok body' := by
  unfold parseAssignment at read ⊢
  obtain ⟨operand, readOperand, read⟩ := Outcome.bind_eq_ok_iff.mp read
  rw [Outcome.mapError_eq_ok_iff] at readOperand
  have readOperand' := (Operand.parse_renamed readOperand left).1
  refine Outcome.bind_eq_ok_iff.mpr ⟨_, Outcome.mapError_eq_ok_iff.mpr readOperand', ?_⟩
  split at read
  · cases read
  rename_i named
  rw [Operand.isNumber_rename, if_neg named]
  obtain ⟨expression, readValue, read⟩ := Outcome.bind_eq_ok_iff.mp read
  rw [Outcome.mapError_eq_ok_iff] at readValue
  cases read
  have readValue' := (Expression.parse_renamed readValue renamable right).1
  refine Outcome.bind_eq_ok_iff.mpr ⟨_, Outcome.mapError_eq_ok_iff.mpr readValue', ?_⟩
  rw [rename?, Option.ite_none_right_eq_some] at renamed
  cases renamed.2
  rfl

end Readings

end CommandBody

end MissionScript
