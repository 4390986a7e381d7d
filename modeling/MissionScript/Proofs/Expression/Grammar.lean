import MissionScript.Expression.Parser
import MissionScript.Proofs.Step

/-!
# The grammar of expressions

Which expressions a text spells, as rules without an order of evaluation: an operand, then operators
with the strengths that they are read with. The reader finds exactly the expression of the rules.
-/

namespace MissionScript

mutual

/-- The whole text spells the expression. -/
inductive Expression.Reads : Text → Expression → Prop
  | whole {text : Text} {tokens : List Token} {e : Expression} (cut : tokenize text = .ok tokens)
      (read : ReadsAt 0 tokens e []) : Expression.Reads text e

/-- The tokens up to the last ones spell an expression whose operators have at least a strength. -/
inductive ReadsAt : Nat → List Token → Expression → List Token → Prop
  | operators {least : Nat} {tokens rest after : List Token} {left e : Expression}
      (first : ReadsOperand tokens left rest) (others : ReadsOperators least left rest e after) :
      ReadsAt least tokens e after

/-- The tokens up to the last ones spell a signed, grouped or single operand. -/
inductive ReadsOperand : List Token → Expression → List Token → Prop
  | operand {text : Text} {o : Operand} {rest : List Token} (read : Operand.parse text = .ok o) :
      ReadsOperand (.operand text :: rest) (.operand o) rest
  | call {f : MathFunction} {argument : Text} {e : Expression} {rest : List Token}
      (read : Expression.Reads argument e) :
      ReadsOperand (.call f argument :: rest) (.call f e) rest
  | minus {e : Expression} {rest after : List Token} (read : ReadsAt signStrength rest e after) :
      ReadsOperand (.minus :: rest) (.negate e) after
  | plus {e : Expression} {rest after : List Token} (read : ReadsAt signStrength rest e after) :
      ReadsOperand (.operator .add :: rest) e after
  | group {e : Expression} {rest after : List Token}
      (read : ReadsAt 0 rest e (.closeParen :: after)) :
      ReadsOperand (.openParen :: rest) e after

/-- After the operand, the tokens up to the last ones make the whole expression of it. -/
inductive ReadsOperators : Nat → Expression → List Token → Expression → List Token → Prop
  | stop {least : Nat} {left : Expression} {tokens : List Token}
      (weak : ∀ op, tokens.head?.bind Token.between? = some op → op.leftStrength < least) :
      ReadsOperators least left tokens left tokens
  | step {least : Nat} {left right e : Expression} {token : Token} {op : MathOperator}
      {rest following after : List Token} (between : token.between? = some op)
      (strong : least ≤ op.leftStrength) (read : ReadsAt op.rightStrength rest right following)
      (others : ReadsOperators least (.binary op left right) following e after) :
      ReadsOperators least left (token :: rest) e after

end

/-! ### The reader follows the rules -/

section Steps

variable {text argument : Text} {tokens rest after : List Token} {least : Nat} {e left : Expression}

theorem Expression.parse_eq_ok_iff :
    Expression.parse text = .ok e ↔
      ∃ tokens lt, tokenize text = .ok tokens ∧ readAt 0 tokens = .ok (e, ⟨[], lt⟩) := by
  rw [Expression.parse]
  constructor
  · intro read
    split at read
    · cases read
    · rename_i tokens cut
      split at read
      · cases read
      · rename_i found lt inner
        cases read
        exact ⟨tokens, lt, cut, inner⟩
      · cases read
  · rintro ⟨tokens, lt, cut, inner⟩
    split
    · rename_i failed
      rw [cut] at failed
      cases failed
    · rename_i cut'
      rw [cut] at cut'
      cases cut'
      rw [inner]

theorem readAt_eq_ok_iff {lt : Token.weights after < Token.weights tokens} :
    readAt least tokens = .ok (e, ⟨after, lt⟩) ↔
      ∃ left rest lt le, readOperand tokens = .ok (left, ⟨rest, lt⟩) ∧
        readOperators least left rest = .ok (e, ⟨after, le⟩) := by
  rw [readAt]
  constructor
  · intro read
    split at read
    · cases read
    · rename_i left rest fewer first
      obtain ⟨⟨e, after, le⟩, others, same⟩ := Outcome.map_eq_ok_iff.mp read
      cases same
      exact ⟨left, rest, fewer, le, first, others⟩
  · rintro ⟨left, rest, fewer, le, first, others⟩
    rw [first]
    simp only [others]
    rfl

theorem readOperators_stop
    (weak : ∀ op, tokens.head?.bind Token.between? = some op → op.leftStrength < least) :
    readOperators least left tokens = .ok (.stop left tokens) := by
  cases tokens with
  | nil => rw [readOperators]
  | cons token rest =>
      rw [readOperators]
      split
      · rfl
      · rename_i op between
        rw [if_pos (weak op between)]

theorem readOperators_step_iff {token : Token} {op : MathOperator}
    {le : Token.weights after ≤ Token.weights (token :: rest)} (between : token.between? = some op)
    (strong : least ≤ op.leftStrength) :
    readOperators least left (token :: rest) = .ok (e, ⟨after, le⟩) ↔
      ∃ right following lt le, readAt op.rightStrength rest = .ok (right, ⟨following, lt⟩) ∧
        readOperators least (.binary op left right) following = .ok (e, ⟨after, le⟩) := by
  rw [readOperators]
  simp only [between, Nat.not_lt.mpr strong, if_false]
  constructor
  · intro read
    split at read
    · cases read
    · rename_i right following lt inner
      obtain ⟨⟨e, after, fewer⟩, others, same⟩ := Outcome.map_eq_ok_iff.mp read
      cases same
      exact ⟨right, following, lt, fewer, inner, others⟩
  · rintro ⟨right, following, lt, fewer, inner, others⟩
    rw [inner]
    simp only [others]
    rfl

end Steps

mutual

theorem Expression.Reads.parse {text : Text} {e : Expression} :
    Expression.Reads text e → Expression.parse text = .ok e
  | .whole cut read => by
      obtain ⟨lt, found⟩ := read.readAt
      exact Expression.parse_eq_ok_iff.mpr ⟨_, lt, cut, found⟩

theorem ReadsAt.readAt {least : Nat} {tokens after : List Token} {e : Expression} :
    ReadsAt least tokens e after → ∃ lt, readAt least tokens = .ok (e, ⟨after, lt⟩)
  | .operators first others => by
      obtain ⟨lt, firstRead⟩ := first.readOperand
      obtain ⟨le, othersRead⟩ := others.readOperators
      exact ⟨Nat.lt_of_le_of_lt le lt, readAt_eq_ok_iff.mpr ⟨_, _, lt, le, firstRead, othersRead⟩⟩

theorem ReadsOperand.readOperand {tokens after : List Token} {e : Expression} :
    ReadsOperand tokens e after → ∃ lt, readOperand tokens = .ok (e, ⟨after, lt⟩)
  | .operand read => by
      refine ⟨Token.weights_lt_cons _ _, ?_⟩
      rw [readOperand, read]
  | .call read => by
      refine ⟨Token.weights_lt_cons _ _, ?_⟩
      rw [readOperand, read.parse]
  | .minus read => by
      obtain ⟨lt, found⟩ := read.readAt
      refine ⟨Token.weights_lt_cons_of_lt lt, ?_⟩
      rw [readOperand, found]
      rfl
  | .plus read => by
      obtain ⟨lt, found⟩ := read.readAt
      refine ⟨Token.weights_lt_cons_of_lt lt, ?_⟩
      rw [readOperand, found]
      rfl
  | .group read => by
      obtain ⟨lt, found⟩ := read.readAt
      refine ⟨Token.weights_lt_cons_of_cons_lt lt, ?_⟩
      rw [readOperand, found]

theorem ReadsOperators.readOperators {least : Nat} {left : Expression} {tokens after : List Token}
    {e : Expression} : ReadsOperators least left tokens e after →
      ∃ le, readOperators least left tokens = .ok (e, ⟨after, le⟩)
  | .stop weak => ⟨Nat.le_refl _, readOperators_stop weak⟩
  | .step between strong read others => by
      obtain ⟨lt, found⟩ := read.readAt
      obtain ⟨le, further⟩ := others.readOperators
      refine ⟨Nat.le_of_lt (Token.weights_lt_cons_of_lt (Nat.lt_of_le_of_lt le lt)), ?_⟩
      exact (readOperators_step_iff between strong).mpr ⟨_, _, lt, le, found, further⟩

end

mutual

theorem Expression.reads_of_parse {text : Text} {e : Expression}
    (read : Expression.parse text = .ok e) : Expression.Reads text e := by
  obtain ⟨tokens, _, cut, inner⟩ := Expression.parse_eq_ok_iff.mp read
  exact .whole cut (readsAt_of_readAt inner)
termination_by (text.length, 3)
decreasing_by
  have := weights_of_tokenize cut
  simp only [Prod.lex_def]
  omega

theorem readsAt_of_readAt {least : Nat} {tokens after : List Token} {e : Expression}
    {lt : Token.weights after < Token.weights tokens}
    (read : readAt least tokens = .ok (e, ⟨after, lt⟩)) : ReadsAt least tokens e after := by
  obtain ⟨left, rest, fewer, _, first, others⟩ := readAt_eq_ok_iff.mp read
  exact .operators (readsOperand_of_readOperand first) (readsOperators_of_readOperators rest others)
termination_by (Token.weights tokens, 2)
decreasing_by
  · exact Prod.Lex.right _ (by decide)
  · exact Prod.Lex.left _ _ fewer

theorem readsOperand_of_readOperand {tokens after : List Token} {e : Expression}
    {lt : Token.weights after < Token.weights tokens}
    (read : readOperand tokens = .ok (e, ⟨after, lt⟩)) : ReadsOperand tokens e after := by
  unfold readOperand at read
  split at read
  · cases read
  · split at read
    · cases read
    · rename_i found
      cases read
      exact .operand found
  · split at read
    · cases read
    · rename_i found
      cases read
      exact .call (Expression.reads_of_parse found)
  · obtain ⟨⟨e, after, fewer⟩, inner, same⟩ := Outcome.map_eq_ok_iff.mp read
    cases same
    exact .minus (readsAt_of_readAt inner)
  · obtain ⟨⟨e, after, fewer⟩, inner, same⟩ := Outcome.map_eq_ok_iff.mp read
    cases same
    exact .plus (readsAt_of_readAt inner)
  · split at read
    · cases read
    · rename_i inner
      cases read
      exact .group (readsAt_of_readAt inner)
    · cases read
  · cases read
  · cases read
termination_by (Token.weights tokens, 1)
decreasing_by
  all_goals subst_vars
  all_goals simp [Prod.lex_def, Token.weight]
  all_goals omega

theorem readsOperators_of_readOperators {least : Nat} {left : Expression} (tokens : List Token)
    {after : List Token} {e : Expression} {le : Token.weights after ≤ Token.weights tokens}
    (read : readOperators least left tokens = .ok (e, ⟨after, le⟩)) :
    ReadsOperators least left tokens e after := by
  by_cases weak : ∀ op, tokens.head?.bind Token.between? = some op → op.leftStrength < least
  · rw [readOperators_stop weak] at read
    cases read
    exact .stop weak
  · simp only [Classical.not_forall, Nat.not_lt] at weak
    obtain ⟨op, between, strong⟩ := weak
    match tokens with
    | [] => cases between
    | token :: rest =>
        obtain ⟨right, following, fewer, _, inner, others⟩ :=
          (readOperators_step_iff between strong).mp read
        exact .step between strong (readsAt_of_readAt inner)
          (readsOperators_of_readOperators following others)
termination_by (Token.weights tokens, 0)
decreasing_by
  · exact Prod.Lex.left _ _ (Token.weights_lt_cons _ _)
  · exact Prod.Lex.left _ _ (Token.weights_lt_cons_of_lt fewer)

end

/-- The reader finds exactly the expression that a text spells. -/
theorem Expression.parse_eq_ok_iff_reads {text : Text} {e : Expression} :
    Expression.parse text = .ok e ↔ Expression.Reads text e :=
  ⟨Expression.reads_of_parse, Expression.Reads.parse⟩

/-- An operand alone is an expression. -/
theorem Expression.parse_of_operand {text : Text} {o : Operand} (cut : tokenize text = .ok [.operand text])
    (read : Operand.parse text = .ok o) : Expression.parse text = .ok (.operand o) :=
  Expression.Reads.parse (.whole cut (.operators (.operand read) (.stop nofun)))

end MissionScript
