import MissionScript.Objects.Table

/-!
# Command keywords

The words that start a command. A line parser is given the set of them.
-/

namespace MissionScript

/-- The keywords known from the start. -/
def builtinKeywords : List Text :=
  ["Achieve", "BeginFiniteBurn", "BeginMissionSequence", "BeginScript", "CallFunction", "ClearPlot",
   "Else", "EndFiniteBurn", "EndFor", "EndIf", "EndOptimize", "EndScript", "EndTarget", "EndWhile",
   "For", "If", "Maneuver", "MarkPoint", "Minimize", "NoOp", "NonlinearConstraint", "Optimize",
   "PenDown", "PenUp", "Propagate", "Report", "Save", "Stop", "Target", "Toggle", "Vary",
   "While"].map String.toList

/-- A set of command keywords. -/
structure Keywords where
  table : Table Unit
deriving DecidableEq, Repr

namespace Keywords

def empty : Keywords := ⟨.empty⟩

def insert (keywords : Keywords) (word : Text) : Keywords := ⟨keywords.table.insert word ()⟩

def insertAll (keywords : Keywords) (words : List Text) : Keywords := words.foldl insert keywords

def builtin : Keywords := empty.insertAll builtinKeywords

def contains (keywords : Keywords) (word : Text) : Bool := keywords.table.contains word

/-- The keywords in ascending order. -/
def words (keywords : Keywords) : List Text := keywords.table.keys

end Keywords

end MissionScript
