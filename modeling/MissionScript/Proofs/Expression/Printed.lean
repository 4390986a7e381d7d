import MissionScript.Proofs.Expression.Grammar
import MissionScript.Proofs.Expression.Symbolic

/-!
# Printed expressions

An expression is printed with parentheses only where the order of precedence needs them: powers bind
tightest and to the right, then the minus sign, then products and then sums, both to the left. The reader
goes by strengths instead. It finds the printed expression again, whatever blanks stand around the operators.
-/

namespace MissionScript

/-! ### The order of precedence -/

/-- Sums come before products, and products before powers; the minus sign is between the last two. -/
def MathOperator.rank : MathOperator → Nat
  | add | subtract => 1
  | multiply | divide => 2
  | power => 4

/-- An operand of this rank needs no parentheses in front of the operator. A power takes only what needs none
anywhere. -/
def MathOperator.takesLeft (op : MathOperator) (rank : Nat) : Bool :=
  if op = .power then rank = 5 else op.rank ≤ rank

/-- An operand of this rank needs no parentheses behind the operator. Only powers group to the right. -/
def MathOperator.takesRight (op : MathOperator) (rank : Nat) : Bool :=
  if op = .power then op.rank ≤ rank else op.rank < rank

namespace Expression

/-- Where an expression stands in the order of precedence. Nothing is above operands and calls. -/
def rank : Expression → Nat
  | binary op _ _ => op.rank
  | negate _ => 3
  | operand _ | call _ _ => 5

/-- The expression needs no parentheses behind a minus sign. -/
def isBareSigned (e : Expression) : Bool := 3 ≤ e.rank

/-- The expression needs no parentheses in front of an operator. -/
def isBareLeft (op : MathOperator) (e : Expression) : Bool :=
  op.takesLeft e.rank

/-- The expression needs no parentheses behind an operator. A minus sign never does there. -/
def isBareRight (op : MathOperator) : Expression → Bool
  | negate _ => true
  | e => op.takesRight e.rank

end Expression

/-! ### Printing -/

/-- The blanks around the operators of an expression, the minus sign included. A place is the way down from
the whole expression, with `true` for the operand behind an operator. -/
structure Spacing where
  front : List Bool → Text
  back : List Bool → Text
  front_blank : ∀ place, (front place).isBlankText
  back_blank : ∀ place, (back place).isBlankText

namespace Spacing

/-- The blanks in the operand on one side. -/
def inside (s : Spacing) (side : Bool) : Spacing where
  front place := s.front (side :: place)
  back place := s.back (side :: place)
  front_blank place := s.front_blank (side :: place)
  back_blank place := s.back_blank (side :: place)

/-- The same blanks everywhere. -/
def uniform (blanks : Text) (blank : blanks.isBlankText) : Spacing where
  front _ := blanks
  back _ := blanks
  front_blank _ := blank
  back_blank _ := blank

end Spacing

/-- A text, in parentheses unless it stands without them. -/
def Text.enclosed (bare : Bool) (text : Text) : Text := if bare then text else '(' :: (text ++ [')'])

/-- Tokens, in parentheses unless they stand without them. -/
def Token.enclosed (bare : Bool) (tokens : List Token) : List Token :=
  if bare then tokens else .openParen :: (tokens ++ [.closeParen])

/-- The token of an operator between two operands. -/
def MathOperator.token : MathOperator → Token
  | subtract => .minus
  | op => .operator op

namespace Expression

/-- The text of an expression with these blanks. -/
def print : Expression → Spacing → Text
  | operand o, _ => o.display
  | negate e, s => s.front [] ++ '-' :: (s.back [] ++ Text.enclosed e.isBareSigned (e.print (s.inside true)))
  | call f e, s => f.name ++ '(' :: e.print (s.inside true) ++ [')']
  | binary op left right, s =>
    Text.enclosed (left.isBareLeft op) (left.print (s.inside false)) ++ (s.front [] ++ op.symbol ::
      (s.back [] ++ Text.enclosed (right.isBareRight op) (right.print (s.inside true))))

/-- The tokens of the printed expression. -/
def tokens : Expression → Spacing → List Token
  | operand o, _ => [.operand o.display]
  | negate e, s => .minus :: Token.enclosed e.isBareSigned (e.tokens (s.inside true))
  | call f e, s => [.call f (e.print (s.inside true))]
  | binary op left right, s =>
    Token.enclosed (left.isBareLeft op) (left.tokens (s.inside false)) ++ op.token ::
      Token.enclosed (right.isBareRight op) (right.tokens (s.inside true))

end Expression

/-! ### The tokens of a printed expression -/

theorem MathOperator.ofChar?_symbol (op : MathOperator) : Token.ofChar? op.symbol = some op.token := by
  cases op <;> rfl

theorem MathOperator.between?_token (op : MathOperator) : op.token.between? = some op := by
  cases op <;> rfl

theorem Nests.enclosed {text : Text} (nests : Nests text) (bare : Bool) :
    Nests (Text.enclosed bare text) := by
  cases bare with
  | true => exact nests
  | false => exact nests.group

theorem Cuts.enclosed {text : Text} {tokens : List Token} (cuts : Cuts text tokens) (bare : Bool) :
    Cuts (Text.enclosed bare text) (Token.enclosed bare tokens) := by
  cases bare with
  | true => exact cuts
  | false => exact .cons rfl (cuts.append (.cons rfl .nil) (by rintro c ⟨⟩; rfl))

theorem endsName_of_isBlank {c : Char} (blank : isBlank c) : endsName c := by
  have other : c ≠ '(' := ne_of_isBlank blank (by decide)
  simp [endsName, isNameChar_of_isBlank blank, other]

/-- An operator ends the name in front of it, and so do the blanks in front of the operator. -/
theorem endsName_front {blanks more : Text} (blank : blanks.isBlankText) (op : MathOperator) :
    ∀ c ∈ (blanks ++ op.symbol :: more).head?, endsName c := by
  cases blanks with
  | nil =>
      rintro c ⟨⟩
      cases op <;> decide
  | cons d blanks =>
      rintro c ⟨⟩
      rw [Text.isBlankText, List.all_cons, Bool.and_eq_true] at blank
      exact endsName_of_isBlank blank.1

namespace Expression

theorem nests_print {e : Expression} (symbolic : e.operands.all (·.isSymbolic)) (s : Spacing) :
    Nests (e.print s) := by
  have sign (c : Char) (flat : c ≠ '\'' ∧ c ≠ '(' ∧ c ≠ ')') {text : Text} (nests : Nests text) :
      Nests (c :: text) := (Nests.of_flat (List.forall_mem_singleton.mpr flat)).append nests
  induction e generalizing s with
  | operand o => exact Operand.nests_display (by simpa [operands] using symbolic)
  | negate e ih =>
      have argument := (ih symbolic (s.inside true)).enclosed e.isBareSigned
      exact (Nests.of_blank (s.front_blank [])).append
        (sign '-' (by decide) ((Nests.of_blank (s.back_blank [])).append argument))
  | call f e ih =>
      rw [print, List.append_assoc, List.cons_append]
      exact (Operand.nests_of_isIdentifier (isIdentifier_name f)).append
        (ih symbolic (s.inside true)).group
  | binary op left right ihLeft ihRight =>
      rw [operands, List.all_append, Bool.and_eq_true] at symbolic
      have first := (ihLeft symbolic.1 (s.inside false)).enclosed (left.isBareLeft op)
      have second := (ihRight symbolic.2 (s.inside true)).enclosed (right.isBareRight op)
      exact first.append ((Nests.of_blank (s.front_blank [])).append
        (sign op.symbol (by cases op <;> decide) ((Nests.of_blank (s.back_blank [])).append second)))

theorem cuts_print {e : Expression} (symbolic : e.operands.all (·.isSymbolic)) (s : Spacing) :
    Cuts (e.print s) (e.tokens s) := by
  induction e generalizing s with
  | operand o => exact Operand.cuts_display (by simpa [operands] using symbolic)
  | negate e ih =>
      have argument := (ih symbolic (s.inside true)).enclosed e.isBareSigned
      exact .blanks_append (s.front_blank []) (.cons rfl (.blanks_append (s.back_blank []) argument))
  | call f e ih =>
      obtain ⟨c, fields, same, starts, named⟩ := Operand.exists_name (isIdentifier_name f)
      have cuts := Cuts.of_group starts named (nests_print (e := e) symbolic (s.inside true))
      rwa [← same, groupToken, MathFunction.ofName?_name] at cuts
  | binary op left right ihLeft ihRight =>
      rw [operands, List.all_append, Bool.and_eq_true] at symbolic
      have first := (ihLeft symbolic.1 (s.inside false)).enclosed (left.isBareLeft op)
      have second := (ihRight symbolic.2 (s.inside true)).enclosed (right.isBareRight op)
      exact first.append (.blanks_append (s.front_blank [])
        (.cons op.ofChar?_symbol (.blanks_append (s.back_blank []) second)))
        (endsName_front (s.front_blank []) op)

theorem tokenize_print {e : Expression} (symbolic : e.operands.all (·.isSymbolic)) (s : Spacing) :
    tokenize (e.print s) = .ok (e.tokens s) :=
  (cuts_print symbolic s).tokenize (nests_print symbolic s).unquoted

end Expression

/-! ### Reading with strengths -/

/-- Between a left operand and its operator the strengths agree with the ranks. -/
theorem MathOperator.strengths_of_takesLeft {op inner : MathOperator} (takes : op.takesLeft inner.rank) :
    op.leftStrength ≤ inner.leftStrength ∧ op.leftStrength < min inner.rightStrength signStrength := by
  revert takes
  cases op <;> cases inner <;> decide

/-- Between an operator and its right operand the strengths agree with the ranks. -/
theorem MathOperator.strengths_of_takesRight {op inner : MathOperator} (takes : op.takesRight inner.rank) :
    op.rightStrength ≤ inner.leftStrength ∧
      min op.rightStrength signStrength ≤ min inner.rightStrength signStrength := by
  revert takes
  cases op <;> cases inner <;> decide

namespace Expression

/-- More than the left strength of any operator. -/
def atomStrength : Nat := MathOperator.power.leftStrength + 1

/-- No operator outside all parentheses binds what stands before it weaker than this. -/
def Reaches (least : Nat) : Expression → Prop
  | binary op _ _ => least ≤ op.leftStrength
  | _ => True

/-- An operator behind the expression leaves it whole if its left strength is less than this. -/
def endStrength : Expression → Nat
  | binary op _ _ => min op.rightStrength signStrength
  | negate _ => signStrength
  | operand _ | call _ _ => atomStrength

/-- What stands behind the expression takes no part of it. -/
def Leaves (e : Expression) (behind : List Token) : Prop :=
  ∀ op, behind.head?.bind Token.between? = some op → op.leftStrength < e.endStrength

section Strengths

variable {e left right : Expression} {op : MathOperator} {least : Nat} {behind : List Token}

theorem leftStrength_lt_atomStrength (op : MathOperator) : op.leftStrength < atomStrength := by
  cases op <;> decide

theorem strengths_of_isBareSigned (bare : e.isBareSigned) :
    e.Reaches signStrength ∧ signStrength ≤ e.endStrength := by
  have atom : signStrength ≤ atomStrength := by decide
  cases e with
  | operand o => exact ⟨trivial, atom⟩
  | negate e => exact ⟨trivial, Nat.le_refl _⟩
  | call f e => exact ⟨trivial, atom⟩
  | binary op left right =>
      change signStrength ≤ op.leftStrength ∧ signStrength ≤ min op.rightStrength signStrength
      cases op with
      | power => decide
      | _ => cases bare

theorem strengths_of_isBareLeft (bare : e.isBareLeft op) :
    e.Reaches op.leftStrength ∧ op.leftStrength < e.endStrength := by
  cases e with
  | operand o => exact ⟨trivial, leftStrength_lt_atomStrength op⟩
  | negate e =>
      change True ∧ op.leftStrength < signStrength
      cases op with
      | power => cases bare
      | _ => decide
  | call f e => exact ⟨trivial, leftStrength_lt_atomStrength op⟩
  | binary inner left right => exact MathOperator.strengths_of_takesLeft bare

theorem strengths_of_isBareRight (bare : e.isBareRight op) :
    e.Reaches op.rightStrength ∧ min op.rightStrength signStrength ≤ e.endStrength := by
  have sign : min op.rightStrength signStrength ≤ signStrength := Nat.min_le_right _ _
  have atom : min op.rightStrength signStrength ≤ atomStrength := Nat.le_trans sign (by decide)
  cases e with
  | operand o => exact ⟨trivial, atom⟩
  | negate e => exact ⟨trivial, sign⟩
  | call f e => exact ⟨trivial, atom⟩
  | binary inner left right => exact MathOperator.strengths_of_takesRight bare

theorem reaches_zero (e : Expression) : e.Reaches 0 := by
  cases e with
  | binary op left right => exact Nat.zero_le _
  | _ => trivial

theorem Reaches.mono {weaker : Nat} (reaches : e.Reaches least) (le : weaker ≤ least) :
    e.Reaches weaker := by
  cases e with
  | binary op left right => exact Nat.le_trans le reaches
  | _ => trivial

theorem Leaves.of_le {f : Expression} (leaves : e.Leaves behind) (le : e.endStrength ≤ f.endStrength) :
    f.Leaves behind :=
  fun op first => Nat.lt_of_lt_of_le (leaves op first) le

end Strengths

/-- In front of what takes no part of the expression, the tokens are read as the expression. -/
def ReadsIn (e : Expression) (tokens : List Token) : Prop :=
  ∀ (least : Nat) (behind after : List Token) (whole : Expression), e.Reaches least → e.Leaves behind →
    ReadsOperators least e behind whole after → ReadsAt least (tokens ++ behind) whole after

namespace ReadsIn

variable {e : Expression} {tokens : List Token}

/-- Nothing is read on after the expression. -/
theorem stop (reads : ReadsIn e tokens) {least : Nat} {behind : List Token} (reaches : e.Reaches least)
    (leaves : e.Leaves behind)
    (weak : ∀ op, behind.head?.bind Token.between? = some op → op.leftStrength < least) :
    ReadsAt least (tokens ++ behind) e behind :=
  reads least behind behind e reaches leaves (.stop weak)

/-- Nothing stands behind the whole expression. -/
theorem whole (reads : ReadsIn e tokens) : ReadsAt 0 tokens e [] := by
  have nothing (least : Nat) (op : MathOperator)
      (first : ([] : List Token).head?.bind Token.between? = some op) : op.leftStrength < least := by
    cases first
  have read := reads.stop e.reaches_zero (nothing _) (nothing _)
  rwa [List.append_nil] at read

/-- In parentheses the expression can stand anywhere. -/
theorem enclosed (reads : ReadsIn e tokens) {bare : Bool} {least : Nat} {behind after : List Token}
    {whole : Expression} (fits : bare = true → e.Reaches least ∧ e.Leaves behind)
    (others : ReadsOperators least e behind whole after) :
    ReadsAt least (Token.enclosed bare tokens ++ behind) whole after := by
  cases bare with
  | true =>
      obtain ⟨reaches, leaves⟩ := fits rfl
      exact reads least behind after whole reaches leaves others
  | false =>
      have nothing {least : Nat} (op : MathOperator)
          (first : (Token.closeParen :: behind).head?.bind Token.between? = some op) :
          op.leftStrength < least := by cases first
      have group := reads.stop e.reaches_zero nothing nothing
      have shape : Token.enclosed false tokens ++ behind =
          .openParen :: (tokens ++ .closeParen :: behind) := by simp [Token.enclosed]
      rw [shape]
      exact .operators (.group group) others

end ReadsIn

theorem readsIn_tokens {e : Expression} (symbolic : e.operands.all (·.isSymbolic)) (s : Spacing) :
    ReadsIn e (e.tokens s) := by
  induction e generalizing s with
  | operand o =>
      intro least behind after whole reaches leaves others
      exact .operators (.operand (Operand.parse_display (by simpa [operands] using symbolic))) others
  | negate e ih =>
      intro least behind after whole reaches leaves others
      refine .operators (.minus ?_) others
      refine (ih symbolic (s.inside true)).enclosed (fun bare => ?_) (.stop leaves)
      obtain ⟨signed, le⟩ := strengths_of_isBareSigned bare
      exact ⟨signed, leaves.of_le le⟩
  | call f e ih =>
      intro least behind after whole reaches leaves others
      have argument : Reads (e.print (s.inside true)) e :=
        .whole (tokenize_print (e := e) symbolic _) (ih symbolic (s.inside true)).whole
      exact .operators (.call argument) others
  | binary op left right ihLeft ihRight =>
      intro least behind after whole reaches leaves others
      rw [operands, List.all_append, Bool.and_eq_true] at symbolic
      rw [tokens, List.append_assoc]
      refine (ihLeft symbolic.1 (s.inside false)).enclosed (fun bare => ?_) ?_
      · obtain ⟨strong, weaker⟩ := strengths_of_isBareLeft bare
        refine ⟨strong.mono reaches, fun next first => ?_⟩
        rw [List.cons_append, List.head?_cons, Option.bind_some, op.between?_token] at first
        cases first
        exact weaker
      · have second : ReadsAt op.rightStrength
            (Token.enclosed (right.isBareRight op) (right.tokens (s.inside true)) ++ behind) right behind := by
          refine (ihRight symbolic.2 (s.inside true)).enclosed (fun bare => ?_) (.stop fun next first => ?_)
          · obtain ⟨strong, le⟩ := strengths_of_isBareRight bare
            exact ⟨strong, leaves.of_le le⟩
          · exact Nat.lt_of_lt_of_le (leaves next first) (Nat.min_le_left _ _)
        exact .step op.between?_token reaches second others

/-- Every expression over names is read from its printed text, whatever blanks stand around its operators. -/
theorem parse_print (e : Expression) (symbolic : e.operands.all (·.isSymbolic)) (s : Spacing) :
    Expression.parse (e.print s) = .ok e := by
  have reads : Reads (e.print s) e := .whole (tokenize_print symbolic s) (readsIn_tokens symbolic s).whole
  exact reads.parse

/-- The minus sign needs no parentheses as an exponent, and what multiplies the power does not go into it. -/
theorem parse_print_signed_exponent :
    let power := binary .power (operand (.var "a".toList)) (negate (operand (.var "b".toList)))
    let sum := binary .add (operand (.element "A".toList (.var "i".toList)))
      (call .sin (negate (operand (.parameter "Sat".toList "X".toList))))
    let e := binary .multiply power (binary .power sum (operand (.var "c".toList)))
    e.operands.all (·.isSymbolic) ∧
      e.print (.uniform [' '] rfl) = "a ^  - b * (A(i) + sin( - Sat.X)) ^ c".toList ∧
      Expression.parse "a ^  - b * (A(i) + sin( - Sat.X)) ^ c".toList = .ok e := by
  intro power sum e
  have symbolic : e.operands.all (·.isSymbolic) := by decide
  have printed : e.print (.uniform [' '] rfl) = "a ^  - b * (A(i) + sin( - Sat.X)) ^ c".toList := rfl
  exact ⟨symbolic, printed, printed ▸ parse_print e symbolic _⟩

end Expression

end MissionScript
