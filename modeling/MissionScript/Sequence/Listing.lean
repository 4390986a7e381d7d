import MissionScript.Sequence.Tree

/-!
# Listings

A sequence as readable text, one line for each command, with the branches indented.
-/

namespace MissionScript

/-- What a listing shows besides the type names. -/
structure ListingStyle where
  /-- The slots of the commands. -/
  addresses : Bool
  /-- The texts of the commands. -/
  generating : Bool
  /-- What stands in front of every line. -/
  indent : Text

namespace ListingStyle

/-- What stands in front of a line for each branch around its command. -/
def step (style : ListingStyle) : Text :=
  if style.indent.contains ' ' then style.indent else ".....".toList

def line (style : ListingStyle) (visit : Visit) : Text :=
  let address := if style.addresses then '(' :: visit.handle.display ++ [')'] else []
  let generating :=
    if style.generating then "  <".toList ++ visit.node.command.generating ++ ['>'] else []
  (List.replicate visit.depth style.step).flatten ++ style.indent ++ address ++
    visit.node.command.typeName ++ generating ++ ['\n']

end ListingStyle

def listingHeader : Text := "\n---------- Mission Sequence ----------\n".toList

/-- The listing of a sequence from a command on. -/
def Arena.listing (a : Arena) (style : ListingStyle) (h : Handle) : Text :=
  listingHeader ++ (a.walk entersOwners h).flatMap style.line ++ ['\n']

end MissionScript
