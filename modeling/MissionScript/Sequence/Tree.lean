import MissionScript.Command.Reference
import MissionScript.Sequence.Chain

/-!
# The tree of a sequence

Walks over the commands of a sequence with everything in their branches: each command comes before its
branches, and these come before the command that follows.
-/

namespace MissionScript

/-- A command met on a walk. -/
structure Visit where
  /-- How many branches enclose the command, counted from where the walk starts. -/
  depth : Nat
  handle : Handle
  node : Node

namespace Arena

/-- Walk from a command on, into the branches of the commands that `enters` admits. A link to a
deleted command ends a chain. `limit` bounds the links from the start to any command. -/
def walkFrom (a : Arena) (enters : Node → Bool) : (limit depth : Nat) → Handle → List Visit
  | 0, _, _ => []
  | limit + 1, depth, h =>
    match a.node? h with
    | none => []
    | some node =>
      let inside :=
        if enters node then node.heads.flatMap (a.walkFrom enters limit (depth + 1)) else []
      { depth, handle := h, node } :: inside ++
        node.next.toList.flatMap (a.walkFrom enters limit depth)

/-- The walk from a command on. -/
def walk (a : Arena) (enters : Node → Bool) (h : Handle) : List Visit :=
  a.walkFrom enters a.slots.size 0 h

/-- The commands from a command on. -/
def commandsFrom (a : Arena) (h : Handle) : List Handle :=
  (a.walk (fun _ => true) h).map (·.handle)

/-- A command and everything in its branches. -/
def subtree (a : Arena) (h : Handle) : List Handle :=
  match a.node? h with
  | none => []
  | some node => h :: node.heads.flatMap a.commandsFrom

/-- Search along a chain and inside the branches of the commands that `enters` admits, and stop at the
first answer of `visit`, which gets the owner of the chain and the command. `limit` bounds the links
from the start to the answer. -/
def searchFrom (a : Arena) (enters : Node → Bool) (visit : Handle → Handle → Option α) :
    (limit : Nat) → (owner h : Handle) → Option α
  | 0, _, _ => none
  | limit + 1, owner, h =>
    match visit owner h with
    | some answer => some answer
    | none =>
      match a.node? h with
      | none => none
      | some node =>
        let inside :=
          if enters node then node.heads.findSome? (a.searchFrom enters visit limit h) else none
        match inside with
        | some answer => some answer
        | none => node.next.bind (a.searchFrom enters visit limit owner)

def entersOwners (node : Node) : Bool := node.command.kind.ownsBranches

/-- The owner of the chain that a command is on. -/
def ownerOf (a : Arena) (wanted : Handle) : (limit : Nat) → (owner h : Handle) → Option Handle :=
  a.searchFrom entersOwners fun owner h => if h = wanted then some owner else none

/-- The command that owns the branch of a command, searched from `top` on. The chain of `top` counts
as its own. -/
def parent (a : Arena) (top h : Handle) : Option Handle := a.ownerOf h (a.slots.size + 1) top top

/-- The command that owns the branch of a command, searched in the branches of `branch`. -/
def parentInside (a : Arena) (branch h : Handle) : Option Handle :=
  (a.node? branch).bind fun node =>
    node.heads.findSome? (a.ownerOf h (a.slots.size + 1) branch)

/-- The type name of the command if it refers to an object. A command that cannot hold objects of the
type does not. -/
def refersTo (a : Arena) (objectType : ObjectType) (name : Text) (h : Handle) : Option Text :=
  (a.command? h).bind fun c =>
    match c.names objectType with
    | .ok names => if names.contains name then some c.typeName else none
    | .error _ => none

/-- The type name of the first command from `h` on that refers to an object. -/
def find (a : Arena) (h : Handle) (objectType : ObjectType) (name : Text) : Option Text :=
  a.searchFrom (fun _ => true) (fun _ => a.refersTo objectType name) (a.slots.size + 1) h h

end Arena

end MissionScript
