import MissionScript.Mission.Definition
import MissionScript.Sequence.Link
import MissionScript.Sequence.Listing

/-!
# Missions

A mission is a linked command sequence with the objects that its script defined. A draft takes the
statements of a script one at a time and links each command where it belongs: in the innermost open
branch, or on the main line.
-/

namespace MissionScript

/-- A command sequence with its objects. -/
structure Mission where
  arena : Arena
  /-- The command in front of the sequence, which does nothing. -/
  head : Handle
  objects : Store
  /-- The number of the source file. -/
  source : Nat

/-- A block that waits for its end. -/
inductive Frame where
  /-- A command that owns branches, and the branch that is open. -/
  | branch (opener : Handle) (kind : CommandKind) (current : Nat)
  | script (opener : Handle)
  /-- A block whose opener is not a command: it only takes up its `Else` and its end, so that these
  are no errors of their own. -/
  | failed (kind : CommandKind) (current : Nat)
deriving DecidableEq, Repr

namespace Frame

/-- The command that opens the block. -/
def opener? : Frame → Option Handle
  | branch opener .. => some opener
  | script opener => some opener
  | failed .. => none

/-- The kind of command that closes the block. -/
def closer : Frame → CommandKind
  | branch _ kind _ | failed kind _ => kind.terminator?.getD .noOp
  | script _ => .endScript

/-- Whether a kind of command may stand here: an end must close the block, and `Else` stands in the
first branch of an `If`. -/
def admits (frame : Frame) (kind : CommandKind) : Bool :=
  match kind, frame with
  | .otherwise, branch _ opened current | .otherwise, failed opened current =>
    opened = .ifThen && current == 0
  | _, _ => frame.closer = kind

/-- The owner and the branch that commands go into. -/
def place? : Frame → Option (Handle × Nat)
  | branch opener _ current => some (opener, current)
  | script _ | failed .. => none

/-- Go on with the second branch. -/
def takeElse : Frame → Frame
  | branch opener kind _ => branch opener kind 1
  | script opener => script opener
  | failed kind _ => failed kind 1

end Frame

/-- A mission to which statements are being added. -/
structure Draft where
  arena : Arena
  head : Handle
  objects : Store := .empty
  /-- The open blocks, innermost first. -/
  frames : List Frame := []
  /-- The mission sequence has started: assignments are commands now. -/
  inMission : Bool := false
  /-- `BeginMissionSequence` has been seen. -/
  begun : Bool := false

/-- A step of drafting. What it has done before it fails stays. -/
abbrev Drafting := ExceptT SequenceError (StateM Draft)

namespace Draft

/-- A draft without commands. -/
def start (objects : Store) : Draft :=
  let (head, arena) := Arena.empty.newSequence
  { arena, head, objects }

/-- Change the arena of a draft. -/
def edit (e : Edit α) : Drafting α := fun d =>
  let (result, arena) := e d.arena
  (result, { d with arena })

/-- Make the objects of a definition, in order up to the first that fails. -/
def define (instruction objectType names : Text) : Drafting Unit := do
  match decompose .square true false names with
  | .error e => throw (.parse e)
  | .ok tokens =>
    tokens.forM fun token => do
      match (← get).objects.define instruction objectType token with
      | .error e => throw e
      | .ok objects => modify ({ · with objects })

/-- Configure an object. -/
def configure (instruction target written : Text) : Drafting Unit := do
  match (← get).objects.configure target written with
  | .error cause => throw (.invalidArgument ⟨CommandKind.assignment.name, instruction⟩ cause)
  | .ok objects => modify ({ · with objects })

/-- The frame for a block whose opener is not a command. -/
def failedFrame? (s : Statement) : Option Frame :=
  s.keyword?.bind fun keyword =>
    let kind := CommandKind.ofKeyword keyword
    if kind.opensBlock then some (.failed kind 0) else none

/-- Note a statement that is not a command. -/
def skip (s : Statement) : Drafting Unit :=
  modify fun d => { d with inMission := true, frames := (failedFrame? s).toList ++ d.frames }

/-- Start the mission sequence with its first command. `BeginMissionSequence` comes once. -/
def begin (c : Command) : Drafting Unit := do
  if c.kind = .beginMissionSequence then
    if (← get).begun then throw (.invalidArgument c.subject .alreadyStarted)
    modify ({ · with begun := true })
  modify ({ · with inMission := true })

/-- Check that a command which ends a block or a branch may stand here. -/
def checkEnd (c : Command) : Drafting Unit := do
  if c.kind = .otherwise || c.kind.closesBlock then
    let frame := (← get).frames.head?
    if !frame.any (·.admits c.kind) then
      throw (.unexpectedTerminator c.subject (frame.map (·.closer)))

/-- Put a command in the arena and link it. -/
def link (c : Command) : Drafting Handle := do
  let h ← edit fun a => let (h, a) := a.insert c; (.ok h, a)
  match (← get).frames.findSome? Frame.place? with
  | some (owner, branch) => edit (Edit.appendToBranch owner branch h)
  | none => edit (Edit.append (← get).head h)
  return h

/-- The open blocks after a command of some kind. -/
def framesAfter (kind : CommandKind) (h : Handle) (frames : List Frame) : List Frame :=
  if kind = .beginScript then .script h :: frames
  else if kind = .otherwise then
    match frames with
    | [] => []
    | frame :: frames => frame.takeElse :: frames
  else if kind.ownsBranches then .branch h kind 0 :: frames
  else if kind.closesBlock then frames.tail
  else frames

/-- Add a command. -/
def addCommand (s : Statement) : Drafting Unit := do
  match Command.ofStatement s with
  | .error e =>
    skip s
    throw e
  | .ok c =>
    begin c
    checkEnd c
    let h ← link { c with span := some s.span }
    modify fun d => { d with frames := framesAfter c.kind h d.frames }

/-- Add a statement. -/
def add (s : Statement) : Drafting Unit := do
  match s.parts with
  | .comment => return
  | .definition objectType names => define s.instruction objectType names
  | .function .. =>
    throw (.invalidArgument ⟨functionKeyword, s.instruction⟩ .functionBlock)
  | .assignment target written =>
    if (← get).inMission then addCommand s else configure s.instruction target written
  | .command .. | .call .. => addCommand s

/-- The blocks that are still open, outermost first. -/
def unclosed (d : Draft) (source : Nat) : List Diagnostic :=
  d.frames.reverse.filterMap fun frame =>
    frame.opener?.bind d.arena.command? |>.map fun c =>
      .locate (.unmatchedBlock c.subject) (some (c.span.getD ⟨0, 0⟩)) source

def finish (d : Draft) (source : Nat) : Mission :=
  { arena := d.arena, head := d.head, objects := d.objects, source }

/-- Add statements, with an error for each that fails. -/
def addAll (source : Nat) : List Statement → Draft → List Diagnostic × Draft
  | [], d => ([], d)
  | s :: rest, d =>
    let (result, d) := add s d
    let (errors, d) := addAll source rest d
    match result with
    | .ok () => (errors, d)
    | .error e => (.locate e (some s.span) source :: errors, d)

end Draft

namespace Mission

/-- Build the mission of a script: every statement must fit and every block must be closed. -/
def ofStatements (source : Nat) (statements : List Statement) : Except (List Diagnostic) Mission :=
  let (errors, d) := Draft.addAll source statements (.start .empty)
  match errors ++ d.unclosed source with
  | [] => .ok (d.finish source)
  | errors => .error errors

/-- Read the text of a script and build its mission. -/
def ofSource (keywords : Keywords) (source : Nat) (text : Text) :
    Except (List Diagnostic) Mission :=
  match parseScript keywords text with
  | .error errors =>
    .error (errors.map fun e => .locate (.parse e.error) (some e.span) source)
  | .ok statements => ofStatements source statements

/-- The listing of the whole sequence. -/
def listing (m : Mission) (style : ListingStyle) : Text := m.arena.listing style m.head

end Mission

end MissionScript
