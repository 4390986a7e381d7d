import MissionScript.Sequence.Link
import MissionScript.Sequence.Tree

/-!
# Removal

Taking commands out of a sequence, and clearing a whole sequence.
-/

namespace MissionScript

namespace Edit

/-- The owner of a command that is first in its branch, and the number of the branch. -/
def branchOf (head h : Handle) : Edit (Handle × Nat) := do
  let subject := (← node h).command.subject
  match (← get).parent head h with
  | none => throw (.parentNotFound subject)
  | some owner =>
    match (← node owner).branches.findIdx? (· == some h) with
    | none => throw (.parentNotFound subject)
    | some branch => return (owner, branch)

/-- Take a command off its chain and close the gap. -/
def unlink (head h : Handle) : Edit Unit := do
  let node ← node h
  match node.previous with
  | some previous => setNext previous node.next
  | none =>
    let (owner, branch) ← branchOf head h
    setBranch owner branch node.next
  forceNext h none
  setPrevious h none

/-- Take commands off their chain and delete them, from `h` up to `stop`, exclusive. `limit` bounds
their number. -/
def deleteUntil (head stop : Handle) : (limit : Nat) → (h : Option Handle) → Edit Unit
  | 0, _ => return
  | _, none => return
  | limit + 1, some h => do
    if h = stop then return
    let following := (← get).next? h
    unlink head h
    let _ ← delete h
    deleteUntil head stop limit following

/-- Delete what a script block holds, and its end. -/
def deleteScript (head h : Handle) : Edit Unit := do
  let node ← node h
  if node.previous.isNone then throw (.nullPrevious node.command.subject)
  match (← get).matchingEnd h with
  | none => throw (.unmatchedBlock node.command.subject)
  | some stop =>
    deleteUntil head stop ((← get).live + 1) node.next
    unlink head stop
    let _ ← delete stop

/-- Take a command out of the sequence that starts at `head`, without deleting it. What a script block
holds is deleted with its end. -/
def remove (head h : Handle) : Edit Unit := do
  if h = head then throw .cannotRemoveHead
  if (← node h).command.kind = .beginScript then deleteScript head h
  unlink head h

/-- Delete a command that cannot be removed, and put what follows it after the first command. -/
def deleteRaw (head h : Handle) : Edit Unit := do
  let following := (← get).next? h
  forceNext h none
  setNext head following
  let _ ← delete h

end Edit

namespace Arena

/-- Forget the number of a result. -/
def forgetResult (a : Arena) (h : Handle) : Arena :=
  (a.modify? h fun node => { node with command := node.command.forgetResult }).getD a

/-- Forget the numbers of the results of a command and of everything in its branches. -/
def forgetResults (a : Arena) (h : Handle) : Arena := (a.subtree h).foldl forgetResult a

/-- Remove and delete the command after the first one, and tell whether to go on. -/
def clearNext (a : Arena) (head h : Handle) : Bool × Arena :=
  match Edit.remove head h a with
  | (.ok _, a) => (true, (a.delete h).2)
  | (.error _, a) =>
    let (result, a) := Edit.deleteRaw head h a
    (result.isOk, a)

/-- Remove and delete all commands after the first one. `limit` bounds their number. -/
def clearRest (a : Arena) (head : Handle) (forget : Bool) : (limit : Nat) → Arena
  | 0 => a
  | limit + 1 =>
    match a.next? head with
    | none => a
    | some h =>
      let a := if forget then a.forgetResults h else a
      match a.clearNext head h with
      | (true, a) => a.clearRest head forget limit
      | (false, a) => a

/-- Delete a sequence, all or all but its first command. With `forget` every command forgets the number
of its result before it goes. -/
def clear (a : Arena) (head : Handle) (keepFirst forget : Bool) : Arena :=
  if !a.contains head then a
  else
    let a := a.clearRest head forget a.live
    if keepFirst then a
    else
      let a := if forget then a.forgetResults head else a
      (a.delete head).2

end Arena

/-- Delete a sequence. The answer is that it is done, also where a command could only be unlinked by
force. -/
def Edit.clear (head : Handle) (keepFirst forget : Bool) : Edit Bool := do
  modify (·.clear head keepFirst forget)
  return true

end MissionScript
