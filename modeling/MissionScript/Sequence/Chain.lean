import MissionScript.Sequence.Arena

/-!
# Chains

The commands that follow each other along the links to the next command: the ends of a chain, the
order on it, the command that closes a block, and the command after a whole block.
-/

namespace MissionScript

/-- The handles that links lead through from `start` on, at most `limit` of them. -/
def follow (link : Handle → Option Handle) : (limit : Nat) → (start : Option Handle) → List Handle
  | 0, _ => []
  | _, none => []
  | limit + 1, some h => h :: follow link limit (link h)

/-- The `EndScript` that closes the innermost of `depth` script blocks that are open in front of these
commands. There is none if a handle resolves to nothing. -/
def closingScript (kind? : Handle → Option CommandKind) : (depth : Nat) → List Handle → Option Handle
  | _, [] => none
  | depth, h :: rest =>
    match kind? h with
    | none => none
    | some .beginScript => closingScript kind? (depth + 1) rest
    | some .endScript => if depth ≤ 1 then some h else closingScript kind? (depth - 1) rest
    | some _ => closingScript kind? depth rest

namespace Arena

/-- More links than any walk that ends can take: a chain holds each command once, and a walk that
counts blocks may go around a ring of them once for each block open at its start. -/
def linkLimit (a : Arena) : Nat := (a.slots.size + 1) * (a.slots.size + 1)

/-- The chain from a command on. A link to a deleted command ends it. -/
def chain (a : Arena) (start : Option Handle) : List Handle := follow a.next? a.linkLimit start

/-- The last command of the chain. -/
def last (a : Arena) (h : Handle) : Handle := (a.chain (some h)).getLastD h

/-- The first command of the chain. -/
def first (a : Arena) (h : Handle) : Handle :=
  (follow a.previous? a.linkLimit (some h)).getLastD h

/-- Whether `h` is on the chain from `other` on. -/
def isAfter (a : Arena) (h other : Handle) : Bool := (a.chain (some other)).contains h

def kind? (a : Arena) (h : Handle) : Option CommandKind := (a.command? h).map (·.kind)

/-- The first command among these that ends a branch. There is none if a handle before it resolves to
nothing. -/
def branchEnd? (a : Arena) : List Handle → Option (Handle × CommandKind)
  | [] => none
  | h :: rest =>
    match a.command? h with
    | none => none
    | some c => if c.isBranchEnd then some (h, c.kind) else a.branchEnd? rest

/-- The end of a command that owns branches: the first branch end in its first branch, or in its
second branch if the first one ends with `Else`. -/
def closingBranch (a : Arena) (h : Handle) : Option Handle :=
  match a.branchEnd? (a.chain (a.child? h 0)) with
  | some (_, .otherwise) =>
    match a.branchEnd? (a.chain (a.child? h 1)) with
    | some (_, .otherwise) => none
    | found => found.map (·.1)
  | found => found.map (·.1)

/-- The command that closes a block: the `EndScript` of a script block on its chain, or the end of a
command that owns branches. -/
def matchingEnd (a : Arena) (h : Handle) : Option Handle :=
  match a.command? h with
  | none => none
  | some c =>
    if c.kind = .beginScript then closingScript a.kind? 0 (a.chain (some h))
    else if c.kind.ownsBranches then a.closingBranch h
    else none

/-- The command after a command, where a script block counts as one. -/
def nextCommand (a : Arena) (h : Handle) : Except SequenceError (Option Handle) :=
  match a.node? h with
  | none => .error (.staleHandle h)
  | some node =>
    if node.command.kind = .beginScript then
      match a.matchingEnd h with
      | none => .error (.unmatchedBlock node.command.subject)
      | some stop => .ok (a.next? stop)
    else .ok node.next

end Arena

end MissionScript
