import MissionScript.Operand.Value

/-!
# Expressions

Arithmetic over operands: `+ - * / ^`, the minus sign, and a few functions.
-/

namespace MissionScript

inductive MathOperator where
  | add
  | subtract
  | multiply
  | divide
  | power
deriving DecidableEq, Repr

namespace MathOperator

def symbol : MathOperator → Char
  | add => '+'
  | subtract => '-'
  | multiply => '*'
  | divide => '/'
  | power => '^'

def name : MathOperator → String
  | add => "Add"
  | subtract => "Subtract"
  | multiply => "Multiply"
  | divide => "Divide"
  | power => "Power"

end MathOperator

inductive MathFunction where
  | sqrt
  | abs
  | sin
  | cos
  | tan
  | asin
  | acos
  | atan
  | exp
  | log
  | log10
  | floor
  | ceil
deriving DecidableEq, Repr

namespace MathFunction

def all : List MathFunction :=
  [sqrt, abs, sin, cos, tan, asin, acos, atan, exp, log, log10, floor, ceil]

def name : MathFunction → Text
  | sqrt => "sqrt".toList
  | abs => "abs".toList
  | sin => "sin".toList
  | cos => "cos".toList
  | tan => "tan".toList
  | asin => "asin".toList
  | acos => "acos".toList
  | atan => "atan".toList
  | exp => "exp".toList
  | log => "log".toList
  | log10 => "log10".toList
  | floor => "floor".toList
  | ceil => "ceil".toList

def ofName? (name : Text) : Option MathFunction := all.find? (·.name == name)

def apply (f : MathFunction) (x : Float) : Float :=
  match f with
  | sqrt => x.sqrt
  | abs => x.abs
  | sin => x.sin
  | cos => x.cos
  | tan => x.tan
  | asin => x.asin
  | acos => x.acos
  | atan => x.atan
  | exp => x.exp
  | log => x.log
  | log10 => x.log10
  | floor => x.floor
  | ceil => x.ceil

theorem ofName?_name (f : MathFunction) : ofName? f.name = some f := by cases f <;> rfl

end MathFunction

inductive Expression where
  | operand (operand : Operand)
  | negate (argument : Expression)
  | call (function : MathFunction) (argument : Expression)
  | binary (operator : MathOperator) (left right : Expression)
deriving Inhabited

namespace Expression

/-- The operands of an expression from left to right. -/
def operands : Expression → List Operand
  | operand o => [o]
  | negate e => e.operands
  | call _ e => e.operands
  | binary _ left right => left.operands ++ right.operands

/-- The objects that an expression reads, in order of first appearance. -/
def names (e : Expression) : List Text :=
  e.operands.foldl (fun names o => Text.addNames names o.names) []

/-- The owners of its `Owner.Parameter` operands, in order of first appearance. -/
def owners (e : Expression) : List Text := Text.addNames [] (e.operands.filterMap (·.owner?))

/-- Whether the expression is a single operand. -/
def isOperand : Expression → Bool
  | operand _ => true
  | _ => false

/-- Put `new` for the object name `old`. -/
def rename (old new : Text) : Expression → Expression
  | operand o => operand (o.rename old new)
  | negate e => negate (e.rename old new)
  | call f e => call f (e.rename old new)
  | binary op left right => binary op (left.rename old new) (right.rename old new)

end Expression

/-- The value of an operation. Only a division by zero fails. -/
def MathOperator.apply (op : MathOperator) (a b : Float) : Except ValueError Float :=
  match op with
  | .add => .ok (a + b)
  | .subtract => .ok (a - b)
  | .multiply => .ok (a * b)
  | .divide => if b == 0 then .error .divisionByZero else .ok (a / b)
  | .power => .ok (a ^ b)

namespace Expression

/-- The value of an expression, operands from left to right. -/
def value (store : Store) : Expression → Except ValueError Float
  | operand o => o.value store
  | negate e => do return -(← e.value store)
  | call f e => do return f.apply (← e.value store)
  | binary op left right => do
    let a ← left.value store
    let b ← right.value store
    op.apply a b

/-- Compute a value and write it to an operand. -/
def assignTo (store : Store) (target : Operand) (e : Expression) :
    Except ValueError (Float × Store) := do
  let new ← e.value store
  return (new, ← target.assign store new)

end Expression

end MissionScript
