import MissionScript.Toml.Scalar

/-!
# TOML documents

A document is a list of lines: headers that open tables, and keys with values. The values of arrays
may spread over several lines of text. A document that breaks a rule of the format has no entries.
-/

namespace MissionScript

/-- A reader gives a value and what follows it. -/
abbrev TomlReader (α : Type) := Text → Option (α × Text)

/-- A line of a document. A path is given as the keys before the last one, and the last one. -/
inductive TomlLine where
  | header (path : List Text) (key : Text)
  | nextHeader (path : List Text) (key : Text)
  | entry (path : List Text) (key : Text) (held : Toml)

namespace TomlLine

/-- Drop the blanks in front. -/
def skipBlanks (text : Text) : Text := text.dropWhile fun c => c == ' ' || c == '\t'

/-- Drop blanks, line ends and comments. `inComment` says that a comment is being dropped. -/
def skipLines : (inComment : Bool) → Text → Text
  | _, [] => []
  | _, '\n' :: rest => skipLines false rest
  | _, '\r' :: '\n' :: rest => skipLines false rest
  | true, c :: rest => if TomlScalar.isPrintable c then skipLines true rest else c :: rest
  | false, c :: rest =>
    if c == ' ' || c == '\t' then skipLines false rest
    else if c == '#' then skipLines true rest
    else c :: rest

/-- The end of a line, with a comment before it. -/
def readEnd? (text : Text) : Option Text :=
  let rest :=
    match skipBlanks text with
    | '#' :: rest => rest.dropWhile TomlScalar.isPrintable
    | rest => rest
  match rest with
  | [] => some []
  | '\n' :: rest => some rest
  | '\r' :: '\n' :: rest => some rest
  | _ => none

def isBareKeyChar (c : Char) : Bool := c.isAlphanum || c == '_' || c == '-'

/-- One key without dots. -/
def readKey : TomlReader Text
  | '"' :: rest => TomlScalar.readBasic rest
  | '\'' :: rest => TomlScalar.readLiteral rest
  | text =>
    let key := text.takeWhile isBareKeyChar
    if key.isEmpty then none else some (key, text.drop key.length)

/-- Keys with dots between them. `limit` bounds their number. -/
def readPath (path : List Text) : (limit : Nat) → TomlReader (List Text × Text)
  | 0, _ => none
  | limit + 1, text => do
    let (key, rest) ← readKey (skipBlanks text)
    match skipBlanks rest with
    | '.' :: rest => readPath (path ++ [key]) limit rest
    | rest => return ((path, key), rest)

/-- What a number or a word consists of. -/
def isScalarChar (c : Char) : Bool := c.isAlphanum || "+-_.:".toList.contains c

mutual

/-- A value. `limit` bounds the nesting and the number of values in it. -/
def readValue : (limit : Nat) → TomlReader Toml
  | 0, _ => none
  | limit + 1, text =>
    let string (read : TomlReader Text) (text : Text) : Option (Toml × Text) :=
      (read text).map fun (content, rest) => (.text content, rest)
    match text with
    | '"' :: '"' :: '"' :: rest =>
      string (TomlScalar.readLongBasic false) (TomlScalar.dropLineEnd rest)
    | '"' :: rest => string TomlScalar.readBasic rest
    | '\'' :: '\'' :: '\'' :: rest =>
      string TomlScalar.readLongLiteral (TomlScalar.dropLineEnd rest)
    | '\'' :: rest => string TomlScalar.readLiteral rest
    | '[' :: rest => readItems [] limit rest
    | '\x7b' :: rest =>
      match skipBlanks rest with
      | '\x7d' :: rest => some (.table .closed [], rest)
      | rest => readFields [] limit rest
    | _ =>
      let word := text.takeWhile isScalarChar
      (TomlScalar.read? word).map fun scalar => (scalar, text.drop word.length)

/-- The rest of an array after the items read. -/
def readItems (items : List Toml) : (limit : Nat) → TomlReader Toml
  | 0, _ => none
  | limit + 1, text =>
    match skipLines false text with
    | ']' :: rest => some (.array items, rest)
    | text => do
      let (item, rest) ← readValue limit text
      match skipLines false rest with
      | ',' :: rest => readItems (items ++ [item]) limit rest
      | ']' :: rest => return (.array (items ++ [item]), rest)
      | _ => none

/-- The rest of an inline table after the entries read. -/
def readFields (entries : TomlEntries) : (limit : Nat) → TomlReader Toml
  | 0, _ => none
  | limit + 1, text => do
    let ((path, key), rest) ← readPath [] limit text
    match rest with
    | '=' :: rest =>
      let (held, rest) ← readValue limit (skipBlanks rest)
      let entries ← entries.addDotted? path key held
      match skipBlanks rest with
      | ',' :: rest => readFields entries limit rest
      | '\x7d' :: rest => return (.table .closed entries, rest)
      | _ => none
    | _ => none

end

/-- A header between one or two brackets on each side. -/
def readHeader (double : Bool) (limit : Nat) (text : Text) : Option (TomlLine × Text) := do
  let ((path, key), rest) ← readPath [] limit text
  match double, rest with
  | true, ']' :: ']' :: rest => return (.nextHeader path key, ← readEnd? rest)
  | false, ']' :: rest => return (.header path key, ← readEnd? rest)
  | _, _ => none

/-- A key with its value. -/
def readEntry (limit : Nat) (text : Text) : Option (TomlLine × Text) := do
  let ((path, key), rest) ← readPath [] limit text
  match rest with
  | '=' :: rest =>
    let (held, rest) ← readValue limit (skipBlanks rest)
    return (.entry path key held, ← readEnd? rest)
  | _ => none

/-- The line in front of a text that is not empty or blank there. -/
def read (limit : Nat) (text : Text) : Option (TomlLine × Text) :=
  match text with
  | '[' :: '[' :: rest => readHeader true limit rest
  | '[' :: rest => readHeader false limit rest
  | _ => readEntry limit text

/-- The lines of a document. `limit` bounds their number and the sizes in each of them. -/
def readAll : (limit : Nat) → Text → Option (List TomlLine)
  | 0, _ => none
  | limit + 1, text =>
    match skipLines false text with
    | [] => some []
    | text => do
      let (line, rest) ← read limit text
      return line :: (← readAll limit rest)

/-- Add a line to a document. `current` is the table that the last header opened. -/
def addTo (document : TomlEntries × List Text) (line : TomlLine) :
    Option (TomlEntries × List Text) :=
  let (entries, current) := document
  match line with
  | header path key => (entries.openTable? path key).map (·, path ++ [key])
  | nextHeader path key => (entries.openNext? path key).map (·, path ++ [key])
  | entry path key held =>
    (entries.change? .implied (· != .closed) (TomlEntries.addDotted? path key held) current).map
      (·, current)

end TomlLine

namespace TomlEntries

/-- The entries of a document. -/
def ofText? (source : Text) : Option TomlEntries := do
  let text := if source.head? == some '\ufeff' then source.tail else source
  let lines ← TomlLine.readAll (2 * text.length + 4) text
  let (entries, _) ← lines.foldlM TomlLine.addTo ([], [])
  return entries

end TomlEntries

end MissionScript
