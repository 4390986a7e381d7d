import MissionScript.Command.Reference
import MissionScript.Sequence.Chain

/-!
# Links

The steps that link the commands of an arena. A step whose handle resolves to nothing fails; the
writes before it stand.
-/

namespace MissionScript

/-- A change of an arena that can fail. What it has changed by then stays. -/
abbrev Edit := ExceptT SequenceError (StateM Arena)

namespace Edit

/-- The node of a handle. -/
def node (h : Handle) : Edit Node := do
  match (← get).node? h with
  | some node => return node
  | none => throw (.staleHandle h)

/-- Change the node of a handle. -/
def modifyNode (h : Handle) (f : Node → Node) : Edit Unit := do
  match (← get).modify? h f with
  | some a => set a
  | none => throw (.staleHandle h)

/-- Link to the next command without telling it. -/
def forceNext (h : Handle) (next : Option Handle) : Edit Unit := modifyNode h ({ · with next })

def setPrevious (h : Handle) (previous : Option Handle) : Edit Unit :=
  modifyNode h ({ · with previous })

/-- Link to the next command and back. -/
def setNext (h : Handle) (next : Option Handle) : Edit Unit := do
  forceNext h next
  if let some next := next then setPrevious next (some h)

/-- Make a command the first one of a branch. It has none before it. -/
def setBranch (owner : Handle) (branch : Nat) (head : Option Handle) : Edit Unit := do
  modifyNode owner (·.setBranch branch head)
  if let some head := head then setPrevious head none

/-- Link a command after the last one of a chain. -/
def append (head h : Handle) : Edit Unit := do
  setNext ((← get).last head) (some h)

/-- Link a command at the end of a branch. -/
def appendToBranch (owner : Handle) (branch : Nat) (h : Handle) : Edit Unit := do
  match (← get).child? owner branch with
  | some head => append head h
  | none => setBranch owner branch (some h)

/-- Link a command between another one and what follows that. -/
def insertAfter (previous h : Handle) : Edit Unit := do
  let following := (← node previous).next
  setNext h following
  setNext previous (some h)

/-- Delete a command with its branches. -/
def delete (h : Handle) : Edit Command := fun a => a.delete h

/-- Put `new` for an object name in a command, and tell whether it occurs there. -/
def rename (h : Handle) (objectType : ObjectType) (old new : Text) : Edit Bool := do
  match (← node h).command.rename? objectType old new with
  | none => return false
  | some command =>
    modifyNode h ({ · with command })
    return true

end Edit

end MissionScript
