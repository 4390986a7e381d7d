import MissionScript.Decimal.Reader

/-!
# TOML values

The values of a TOML document, with what the format says about how a table may still grow.
-/

namespace MissionScript

/-- How a table came into being, which decides what may be added to it. -/
inductive TomlOrigin where
  /-- Written inline: it is complete. -/
  | closed
  /-- Opened by a header of its own. -/
  | header
  /-- Named in front of another header: a header may still open it. -/
  | implied
  /-- Named by a dotted key: other dotted keys may add to it. -/
  | dotted
deriving DecidableEq, Repr

inductive Toml where
  | text (text : Text)
  | integer (n : Int)
  | float (x : Float)
  | boolean (b : Bool)
  | array (items : List Toml)
  | table (origin : TomlOrigin) (entries : List (Text × Toml))
  /-- Tables opened by double headers. -/
  | tables (items : List (List (Text × Toml)))

/-- The entries of a table in the order in which they are written. -/
abbrev TomlEntries := List (Text × Toml)

namespace TomlEntries

/-- Change the value of a key. -/
def update? (key : Text) (f : Option Toml → Option Toml) : TomlEntries → Option TomlEntries
  | [] => (f none).map fun new => [(key, new)]
  | (other, held) :: rest =>
    if other = key then (f (some held)).map fun new => (key, new) :: rest
    else (update? key f rest).map ((other, held) :: ·)

/-- Change the table at the end of a path. Missing tables come into being as `origin` says; tables
that are there are entered if `admits` says so, and of several tables the last. -/
def change? (origin : TomlOrigin) (admits : TomlOrigin → Bool)
    (f : TomlEntries → Option TomlEntries) : List Text → TomlEntries → Option TomlEntries
  | [], entries => f entries
  | key :: path, entries =>
    update? key (fun
      | none => (change? origin admits f path []).map (.table origin)
      | some (.table held inside) =>
        if admits held then (change? origin admits f path inside).map (.table held) else none
      | some (.tables items) =>
        if admits .header then
          items.getLast?.bind fun last =>
            (change? origin admits f path last).map fun last => .tables (items.dropLast ++ [last])
        else none
      | some _ => none) entries

/-- Add a value under a key that is new. -/
def addNew? (key : Text) (new : Toml) (entries : TomlEntries) : Option TomlEntries :=
  if (entries.lookup key).isSome then none else some (entries ++ [(key, new)])

/-- Add a value under a dotted key. -/
def addDotted? (path : List Text) (key : Text) (new : Toml) (entries : TomlEntries) :
    Option TomlEntries :=
  entries.change? .dotted (· == .dotted) (addNew? key new) path

/-- Open a table with a header. -/
def openTable? (path : List Text) (key : Text) (entries : TomlEntries) : Option TomlEntries :=
  entries.change? .implied (· != .closed) (update? key fun
    | none => some (.table .header [])
    | some (.table .implied inside) => some (.table .header inside)
    | some _ => none) path

/-- Open one more of several tables with a double header. -/
def openNext? (path : List Text) (key : Text) (entries : TomlEntries) : Option TomlEntries :=
  entries.change? .implied (· != .closed) (update? key fun
    | none => some (.tables [[]])
    | some (.tables items) => some (.tables (items ++ [[]]))
    | some _ => none) path

end TomlEntries

end MissionScript
