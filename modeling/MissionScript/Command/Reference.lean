import MissionScript.Command.Basic

/-!
# References

The objects that a command refers to: asking for them, renaming them, and checking that they exist.
-/

namespace MissionScript

namespace CommandBody

/-- The objects of a type that the arguments refer to. Nothing if the grammar of the command cannot
hold objects of the type. -/
def names? (objectType : ObjectType) : CommandBody → Option (List Text)
  | structural => some []
  | assignment target expression =>
    match objectType with
    | .any | .parameter => some (Text.addNames target.names expression.names)
    | .spacecraft => some (Text.addNames target.owner?.toList expression.owners)
    | .solver | .hardware | .function => none
  | call c =>
    match objectType with
    | .function => some [c.name]
    | .parameter => some c.argumentNames
    | .any => some (c.name :: c.argumentNames)
    | .spacecraft | .solver | .hardware => none
  | condition c =>
    match objectType with
    | .any | .parameter => some c.names
    | .spacecraft => some c.owners
    | .solver | .hardware | .function => none
  | range r =>
    match objectType with
    | .any | .parameter => some r.names
    | .spacecraft => some r.owners
    | .solver | .hardware | .function => none
  | solverLoop s =>
    match objectType with
    | .any | .solver => some [s.solver]
    | .spacecraft | .parameter | .hardware | .function => some []
  | objective o =>
    match objectType with
    | .solver => some [o.solver]
    | .parameter => some o.operand.names
    | .spacecraft => some o.operand.owner?.toList
    | .any => some (o.solver :: o.operand.names)
    | .hardware | .function => some []
  | constraint c =>
    match objectType with
    | .solver => some [c.solver]
    | .parameter => some c.names
    | .spacecraft => some c.owners
    | .any => some (c.solver :: c.names)
    | .hardware | .function => some []
  | generic arguments => some arguments.identifiers

/-- The body with `new` for the object name `old`. Nothing if the name does not occur. -/
def rename? (objectType : ObjectType) (old new : Text) : CommandBody → Option CommandBody
  | structural => none
  | assignment target expression =>
    if target.names.contains old || expression.names.contains old then
      some (assignment (target.rename old new) (expression.rename old new))
    else none
  | call c => (c.rename? objectType old new).map call
  | condition c => if c.names.contains old then some (condition (c.rename old new)) else none
  | range r => if r.names.contains old then some (range (r.rename old new)) else none
  | solverLoop s => if s.solver = old then some (solverLoop (s.rename old new)) else none
  | objective o => (o.rename? objectType old new).map objective
  | constraint c => (c.rename? objectType old new).map constraint
  | generic arguments =>
    let renamed := Text.replaceWord old new arguments
    if renamed = arguments then none else some (generic renamed)

end CommandBody

/-- What a command may look at to resolve its references. -/
structure Resolution where
  objects : Store
  /-- The object types that count as solvers. -/
  solverTypes : List Text

namespace Resolution

/-- Whether the object of a name is a solver. -/
def isSolver (r : Resolution) (name : Text) : Bool :=
  (r.objects.get? name).any fun object => r.solverTypes.contains object.typeName

/-- Check that all objects exist. -/
def requireAll (r : Resolution) (names : List Text) : Except ResolutionError Unit :=
  match names.find? fun name => !r.objects.contains name with
  | some name => .error (.undefined name)
  | none => .ok ()

def requireSolver (r : Resolution) (name : Text) : Except ResolutionError Unit :=
  if !r.objects.contains name then .error (.solverNotCreated name)
  else if !r.isSolver name then .error (.notSolver name)
  else .ok ()

/-- Check the objects that a body needs. Calls and keywords without behavior need none. -/
def check (r : Resolution) : CommandBody → Except ResolutionError Unit
  | .structural | .call _ | .generic _ => .ok ()
  | .assignment target expression => do
    r.requireAll target.names
    r.requireAll expression.names
  | .condition c => r.requireAll c.names
  | .range range => r.requireAll range.names
  | .solverLoop s => r.requireSolver s.solver
  | .objective o => do
    r.requireSolver o.solver
    r.requireAll o.operand.names
  | .constraint c => do
    r.requireSolver c.solver
    r.requireAll c.names

end Resolution

namespace Command

/-- The objects of a type that the command refers to. -/
def names (c : Command) (objectType : ObjectType) : Except SequenceError (List Text) :=
  match c.body.names? objectType with
  | some names => .ok names
  | none => .error (.unsupportedObjectType c.typeName objectType)

/-- The command with `new` for the object name `old` in its arguments and in its text. Nothing if its
arguments do not refer to the object. -/
def rename? (c : Command) (objectType : ObjectType) (old new : Text) : Option Command :=
  (c.body.rename? objectType old new).map fun body =>
    { c with body, generating := Text.replaceWord old new c.generating }

/-- Check that every object which the command needs exists. -/
def resolve (c : Command) (r : Resolution) : Except SequenceError Unit :=
  (r.check c.body).mapError (.unresolvedReference c.subject)

end Command

end MissionScript
