import MissionScript.Expression.Basic

/-!
# Tokens of expressions

An expression is cut into operands, calls of functions, operators and parentheses. The argument of a
call is kept as text and read when the call is reached.
-/

namespace MissionScript

inductive Token where
  /-- The text of an operand, the indices of an array element included. -/
  | operand (text : Text)
  /-- A function with the text of its argument. -/
  | call (function : MathFunction) (argument : Text)
  /-- An operator other than the minus sign. -/
  | operator (operator : MathOperator)
  | minus
  | openParen
  | closeParen
deriving DecidableEq, Repr

/-- Why a text is not an expression. -/
inductive ExpressionError where
  | operand (error : OperandError)
  | stringValue (text : Text)
  | unmatchedParenthesis (text : Text)
  | unexpectedCharacter (c : Char) (text : Text)
  /-- Something follows the expression. -/
  | trailing (text : Text)
  | unexpectedOperator (operator : MathOperator)
  | unexpectedClose
  | unexpectedEnd
  | expectedClose
deriving DecidableEq, Repr

namespace ExpressionError

def message : ExpressionError → String
  | operand error => error.message
  | stringValue text => "string values are not numeric: " ++ text.trim.quoted
  | unmatchedParenthesis text => "unmatched parenthesis in " ++ text.trim.quoted
  | unexpectedCharacter c text =>
    "unexpected character '" ++ Text.str [c] ++ "' in " ++ text.trim.quoted
  | trailing text => "unexpected text in expression " ++ text.trim.quoted
  | unexpectedOperator operator => "unexpected Operator(" ++ operator.name ++ ") in expression"
  | unexpectedClose => "unexpected RParen in expression"
  | unexpectedEnd => "unexpected end of expression"
  | expectedClose => "expected ')'"

end ExpressionError

namespace Token

/-- The token of a single character. -/
def ofChar? : Char → Option Token
  | '+' => some (operator .add)
  | '-' => some minus
  | '*' => some (operator .multiply)
  | '/' => some (operator .divide)
  | '^' => some (operator .power)
  | '(' => some openParen
  | ')' => some closeParen
  | _ => none

/-- How much text a token holds at least: more than the argument of a call. -/
def weight : Token → Nat
  | call _ argument => argument.length + 1
  | _ => 1

/-- How much text some tokens hold at least. -/
def weights : List Token → Nat
  | [] => 0
  | t :: tokens => t.weight + weights tokens

@[simp] theorem weights_nil : weights [] = 0 := rfl

@[simp] theorem weights_cons (t : Token) (tokens : List Token) :
    weights (t :: tokens) = t.weight + weights tokens := rfl

theorem weight_pos (t : Token) : 0 < t.weight := by cases t <;> simp [weight]

end Token

/-- How many of the glyphs after `previous` belong to a number: letters, digits, points, and a sign
directly after an `e`. -/
def numberLength (previous : Char) : List Glyph → Nat
  | [] => 0
  | g :: rest =>
    let sign := (g.char == '+' || g.char == '-') && (previous == 'e' || previous == 'E')
    if g.char.isAlphanum || g.char == '.' || sign then numberLength g.char rest + 1 else 0

theorem numberLength_le (previous : Char) (glyphs : List Glyph) :
    numberLength previous glyphs ≤ glyphs.length := by
  induction glyphs generalizing previous with
  | nil => simp [numberLength]
  | cons g rest ih =>
    simp only [numberLength]
    split
    · simpa using ih g.char
    · omega

/-- A character of a name in an expression. -/
def isNameChar (c : Char) : Bool := isWordChar c || c == '.'

/-- The token of a name that is followed by a group. -/
def groupToken (name argument : Text) : Token :=
  match MathFunction.ofName? name with
  | some function => .call function argument
  | none => .operand (name ++ '(' :: argument ++ [')'])

/-- The tokens of the glyphs that follow the token beginning with `previous`; `whole` is the text that
messages show. -/
def tokensFrom (whole : Text) (previous : Option Char) (glyphs : List Glyph) :
    Except ExpressionError (List Token) :=
  match glyphs with
  | [] => .ok []
  | g :: rest =>
    let c := g.char
    if c == '\'' && Literal.opensAfter previous then .error (.stringValue whole)
    else if isBlank c then tokensFrom whole (some c) rest
    else if let some token := Token.ofChar? c then
      (tokensFrom whole (some c) rest).map (token :: ·)
    else if c.isDigit || c == '.' then
      let length := numberLength c rest
      let text := c :: Text.ofGlyphs (rest.take length)
      (tokensFrom whole (some c) (rest.drop length)).map (.operand text :: ·)
    else if c.isAlpha || c == '_' then
      let name := c :: Text.ofGlyphs (rest.takeWhile fun g => isNameChar g.char)
      match _split : rest.dropWhile fun g => isNameChar g.char with
      | [] => .ok [.operand name]
      | next :: after =>
        if next.char == '(' then
          match _found : Bracket.paren.splitClosing 0 after with
          | none => .error (.unmatchedParenthesis whole)
          | some (inside, after) =>
            (tokensFrom whole (some c) after).map (groupToken name (Text.ofGlyphs inside) :: ·)
        else (tokensFrom whole (some c) (next :: after)).map (.operand name :: ·)
    else .error (.unexpectedCharacter c whole)
termination_by glyphs.length
decreasing_by
  · simp
  · simp
  · simp only [List.length_drop, List.length_cons]; omega
  · have shorter := (List.dropWhile_sublist (l := rest) fun g => isNameChar g.char).length_le
    obtain ⟨_, _, joined⟩ := Bracket.append_of_splitClosing _found
    rw [_split, joined] at shorter
    simp only [List.length_cons, List.length_append] at shorter ⊢
    omega
  · have shorter := (List.dropWhile_sublist (l := rest) fun g => isNameChar g.char).length_le
    rw [_split] at shorter
    simp only [List.length_cons] at shorter ⊢
    omega

/-- The tokens of a text. -/
def tokenize (text : Text) : Except ExpressionError (List Token) :=
  tokensFrom text none text.glyphs

theorem weights_of_map {token : Token} {result : Except ExpressionError (List Token)}
    {tokens : List Token} {length bound : Nat}
    (cut : result.map (token :: ·) = .ok tokens)
    (following : ∀ found, result = .ok found → Token.weights found ≤ length)
    (light : token.weight + length ≤ bound) : Token.weights tokens ≤ bound := by
  cases result with
  | error e => cases cut
  | ok found =>
    cases cut
    have := following found rfl
    simp only [Token.weights_cons]
    omega

theorem weight_groupToken_le (name argument : Text) :
    (groupToken name argument).weight ≤ argument.length + 1 := by
  unfold groupToken
  split <;> simp [Token.weight]

theorem weight_ofChar? {c : Char} {token : Token} (made : Token.ofChar? c = some token) :
    token.weight = 1 := by
  unfold Token.ofChar? at made
  split at made <;> cases made <;> rfl

/-- Every token stands for characters of its own. -/
theorem weights_of_tokensFrom {whole : Text} {previous : Option Char} {glyphs : List Glyph}
    {tokens : List Token} (cut : tokensFrom whole previous glyphs = .ok tokens) :
    Token.weights tokens ≤ glyphs.length := by
  fun_induction tokensFrom whole previous glyphs generalizing tokens with
  | case1 => cases cut; simp
  | case2 => cases cut
  | case3 previous g rest c _ _ =>
    rename_i ih
    have := ih cut
    simp only [List.length_cons]
    omega
  | case4 previous g rest c _ _ token made =>
    rename_i ih
    refine weights_of_map cut (fun _ found => ih found) ?_
    simp [weight_ofChar? made]
    omega
  | case5 previous g rest c _ _ _ length text _ =>
    rename_i ih
    refine weights_of_map cut (fun _ found => ih found) ?_
    simp [Token.weight]
    omega
  | case6 => cases cut; simp [Token.weight]
  | case7 => cases cut
  | case8 previous g rest c _ _ _ _ name next after split _ inside after' found _ =>
    rename_i ih
    refine weights_of_map cut (fun _ found => ih found) ?_
    have shorter := (List.dropWhile_sublist (l := rest) fun g => isNameChar g.char).length_le
    obtain ⟨_, _, joined⟩ := Bracket.append_of_splitClosing found
    rw [split, joined] at shorter
    have := weight_groupToken_le name (Text.ofGlyphs inside)
    simp only [List.length_cons, List.length_append, Text.length_ofGlyphs] at this shorter ⊢
    omega
  | case9 previous g rest c _ _ _ _ name next after split _ _ =>
    rename_i ih
    refine weights_of_map cut (fun _ found => ih found) ?_
    have shorter := (List.dropWhile_sublist (l := rest) fun g => isNameChar g.char).length_le
    rw [split] at shorter
    simp only [Token.weight, List.length_cons] at shorter ⊢
    omega
  | case10 => cases cut

theorem weights_of_tokenize {text : Text} {tokens : List Token}
    (cut : tokenize text = .ok tokens) : Token.weights tokens ≤ text.length := by
  simpa using weights_of_tokensFrom cut

end MissionScript
