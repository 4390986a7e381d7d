import MissionScript.Command.Argument
import MissionScript.Expression.Parser

/-!
# Ranges

The range that a `For` loop runs through: `index = start:end` or `index = start:step:end`.
-/

namespace MissionScript

structure LoopRange where
  index : Operand
  start : Expression
  /-- One if it is not given. -/
  step : Option Expression
  stop : Expression

/-- The numbers of a range. -/
structure LoopBounds where
  start : Float
  step : Float
  stop : Float

namespace LoopBounds

/-- Whether the loop is to make a pass with this value of its index. -/
def admits (b : LoopBounds) (value : Float) : Bool :=
  (0 < b.step && value ≤ b.stop) || (b.step < 0 && b.stop ≤ value)

end LoopBounds

namespace LoopRange

def parse (text : Text) : Except ArgumentError LoopRange := do
  let expression (text : Text) : Except ArgumentError Expression :=
    (Expression.parse text).mapError .expression
  match text.cutAt '=' with
  | none => throw (.noLoopIndex text.trim)
  | some (index, range) =>
    let index ← (Operand.parse index).mapError .operand
    if index.isNumber then throw .numberAsIndex
    match range.splitOn ':' with
    | [start, stop] =>
      let start ← expression start
      let stop ← expression stop
      return { index, start, step := none, stop }
    | [start, step, stop] =>
      let start ← expression start
      let step ← expression step
      let stop ← expression stop
      return { index, start, step := some step, stop }
    | _ => throw (.badRange range.trim)

/-- The numbers of the range, start before step before end. -/
def bounds (store : Store) (r : LoopRange) : Except ValueError LoopBounds := do
  let start ← r.start.value store
  let step ← match r.step with
    | some step => step.value store
    | none => pure 1
  let stop ← r.stop.value store
  if step == 0 then throw .zeroStep
  return { start, step, stop }

def expressions (r : LoopRange) : List Expression := r.start :: r.stop :: r.step.toList

/-- The objects that the range names, the index first. -/
def names (r : LoopRange) : List Text :=
  r.expressions.foldl (fun names e => Text.addNames names e.names) r.index.names

def owners (r : LoopRange) : List Text :=
  r.expressions.foldl (fun names e => Text.addNames names e.owners) r.index.owner?.toList

def rename (old new : Text) (r : LoopRange) : LoopRange where
  index := r.index.rename old new
  start := r.start.rename old new
  step := r.step.map (·.rename old new)
  stop := r.stop.rename old new

end LoopRange

end MissionScript
