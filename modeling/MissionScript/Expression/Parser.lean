import MissionScript.Expression.Token

/-!
# Reading expressions

Operators bind with a left and a right strength. Power binds tightest and to the right, then the
signs, then `*` and `/`, then `+` and `-`, the last two pairs to the left; so `-2^2` is `-(2^2)`. A
part of an expression takes every operator whose left strength reaches the strength it is read with.
-/

namespace MissionScript

namespace MathOperator

/-- How strongly an operator binds what stands before it. -/
def leftStrength : MathOperator → Nat
  | add | subtract => 2
  | multiply | divide => 4
  | power => 8

/-- How strongly an operator binds what stands after it. -/
def rightStrength : MathOperator → Nat
  | add | subtract => 3
  | multiply | divide => 5
  | power => 8

end MathOperator

/-- How strongly a sign binds what stands after it. -/
def signStrength : Nat := 6

namespace Token

/-- The operator that a token is between two operands. -/
def between? : Token → Option MathOperator
  | operator op => some op
  | minus => some .subtract
  | _ => none

end Token

/-- An expression with the tokens that follow it, fewer than were there before. -/
abbrev ReadFrom (tokens : List Token) : Type :=
  Expression × { rest : List Token // Token.weights rest < Token.weights tokens }

/-- An expression with the tokens that follow it, no more than were there before. -/
abbrev ReadUpTo (tokens : List Token) : Type :=
  Expression × { rest : List Token // Token.weights rest ≤ Token.weights tokens }

namespace ReadFrom

/-- Fewer tokens than in the rest are fewer than in the whole. -/
def within {tokens inner : List Token} (le : Token.weights inner ≤ Token.weights tokens)
    (read : ReadFrom inner) : ReadFrom tokens :=
  (read.1, ⟨read.2.1, Nat.lt_of_lt_of_le read.2.2 le⟩)

end ReadFrom

namespace ReadUpTo

/-- Nothing is read after the expression. -/
def stop (e : Expression) (tokens : List Token) : ReadUpTo tokens :=
  (e, ⟨tokens, Nat.le_refl _⟩)

/-- No more tokens than in the rest are no more than in the whole. -/
def within {tokens inner : List Token} (le : Token.weights inner ≤ Token.weights tokens)
    (read : ReadUpTo inner) : ReadUpTo tokens :=
  (read.1, ⟨read.2.1, Nat.le_trans read.2.2 le⟩)

/-- No more tokens than in a shorter rest are fewer than in the whole. -/
def after {tokens inner : List Token} (lt : Token.weights inner < Token.weights tokens)
    (read : ReadUpTo inner) : ReadFrom tokens :=
  (read.1, ⟨read.2.1, Nat.lt_of_le_of_lt read.2.2 lt⟩)

end ReadUpTo

namespace Token

theorem weights_le_cons (t : Token) (tokens : List Token) : weights tokens ≤ weights (t :: tokens) :=
  Nat.le_add_left _ _

theorem weights_lt_cons (t : Token) (tokens : List Token) : weights tokens < weights (t :: tokens) :=
  Nat.lt_add_of_pos_left (weight_pos t)

theorem weights_lt_cons_of_lt {t : Token} {tokens rest : List Token}
    (lt : weights rest < weights tokens) : weights rest < weights (t :: tokens) :=
  Nat.lt_trans lt (weights_lt_cons t tokens)

theorem weights_lt_cons_of_cons_lt {t u : Token} {tokens rest : List Token}
    (lt : weights (u :: rest) < weights tokens) : weights rest < weights (t :: tokens) :=
  weights_lt_cons_of_lt (Nat.lt_trans (weights_lt_cons u rest) lt)

end Token

mutual

/-- Read a whole text. -/
def Expression.parse (text : Text) : Except ExpressionError Expression :=
  match _cut : tokenize text with
  | .error e => .error e
  | .ok tokens =>
    match readAt 0 tokens with
    | .error e => .error e
    | .ok (e, ⟨[], _⟩) => .ok e
    | .ok (_, ⟨_ :: _, _⟩) => .error (.trailing text)
termination_by (text.length, 3)
decreasing_by
  have := weights_of_tokenize _cut
  simp only [Prod.lex_def]
  omega

/-- Read an expression whose operators have at least the left strength `least`. -/
def readAt (least : Nat) (tokens : List Token) : Except ExpressionError (ReadFrom tokens) :=
  match readOperand tokens with
  | .error e => .error e
  | .ok (e, ⟨rest, lt⟩) => (readOperators least e rest).map (ReadUpTo.after lt)
termination_by (Token.weights tokens, 2)
decreasing_by
  · exact Prod.Lex.right _ (by decide)
  · exact Prod.Lex.left _ _ lt

/-- Read a signed, grouped or single operand. -/
def readOperand (tokens : List Token) : Except ExpressionError (ReadFrom tokens) :=
  match tokens with
  | [] => .error .unexpectedEnd
  | .operand text :: rest =>
    match Operand.parse text with
    | .error e => .error (.operand e)
    | .ok o => .ok (.operand o, ⟨rest, Token.weights_lt_cons _ _⟩)
  | .call function argument :: rest =>
    match Expression.parse argument with
    | .error e => .error e
    | .ok e => .ok (.call function e, ⟨rest, Token.weights_lt_cons _ _⟩)
  | .minus :: rest =>
    (readAt signStrength rest).map fun read =>
      (ReadFrom.within (Token.weights_le_cons _ _) read).map .negate id
  | .operator .add :: rest =>
    (readAt signStrength rest).map (ReadFrom.within (Token.weights_le_cons _ _))
  | .openParen :: rest =>
    match readAt 0 rest with
    | .error e => .error e
    | .ok (e, ⟨.closeParen :: rest, lt⟩) => .ok (e, ⟨rest, Token.weights_lt_cons_of_cons_lt lt⟩)
    | .ok _ => .error .expectedClose
  | .operator op :: _ => .error (.unexpectedOperator op)
  | .closeParen :: _ => .error .unexpectedClose
termination_by (Token.weights tokens, 1)
decreasing_by
  all_goals simp [Prod.lex_def, Token.weight]
  all_goals omega

/-- Read on after the operand `left`. -/
def readOperators (least : Nat) (left : Expression) (tokens : List Token) :
    Except ExpressionError (ReadUpTo tokens) :=
  match tokens with
  | [] => .ok (.stop left [])
  | token :: rest =>
    match token.between? with
    | none => .ok (.stop left (token :: rest))
    | some op =>
      if op.leftStrength < least then .ok (.stop left (token :: rest))
      else
        match readAt op.rightStrength rest with
        | .error e => .error e
        | .ok (right, ⟨following, lt⟩) =>
          (readOperators least (.binary op left right) following).map
            (ReadUpTo.within (Nat.le_of_lt (Token.weights_lt_cons_of_lt lt)))
termination_by (Token.weights tokens, 0)
decreasing_by
  · exact Prod.Lex.left _ _ (Token.weights_lt_cons _ _)
  · exact Prod.Lex.left _ _ (Token.weights_lt_cons_of_lt lt)

end

end MissionScript
