import MissionScript.Toml.Value

/-!
# TOML scalars

Strings in their four spellings, numbers and booleans. A string reader starts behind the opening
quotes and gives the content and what follows the closing quotes.
-/

namespace MissionScript.TomlScalar

/-- What may stand in a string or a comment besides line ends: no control character but the tab. -/
def isPrintable (c : Char) : Bool := c == '\t' || (' ' ≤ c && c != '\x7f')

/-- The value of a hexadecimal digit. -/
def hexDigit? (c : Char) : Option Nat :=
  if c.isDigit then some (c.toNat - '0'.toNat)
  else if 'a' ≤ c && c ≤ 'f' then some (c.toNat - 'a'.toNat + 10)
  else if 'A' ≤ c && c ≤ 'F' then some (c.toNat - 'A'.toNat + 10)
  else none

/-- The number that digits of a base spell. -/
def numeral? (digit? : Char → Option Nat) (base : Nat) (digits : Text) : Option Nat :=
  digits.foldlM (fun value c => (digit? c).map (base * value + ·)) 0

/-- The character of a code point in hexadecimal. -/
def codePoint? (digits : Text) : Option Char :=
  (numeral? hexDigit? 16 digits).bind fun n => if n.isValidChar then some (Char.ofNat n) else none

/-- The character that a letter stands for behind a backslash. -/
def escaped? : Char → Option Char
  | 'b' => some '\x08'
  | 't' => some '\t'
  | 'n' => some '\n'
  | 'f' => some '\x0c'
  | 'r' => some '\r'
  | '"' => some '"'
  | '\\' => some '\\'
  | _ => none

/-- Put a character in front of what a reader gives. -/
def cons (c : Char) : Option (Text × Text) → Option (Text × Text) :=
  Option.map fun (content, rest) => (c :: content, rest)

/-- A string in double quotes. -/
def readBasic : Text → Option (Text × Text)
  | [] => none
  | '"' :: rest => some ([], rest)
  | '\\' :: 'u' :: a :: b :: c :: d :: rest =>
    (codePoint? [a, b, c, d]).bind fun point => cons point (readBasic rest)
  | '\\' :: 'U' :: a :: b :: c :: d :: e :: f :: g :: h :: rest =>
    (codePoint? [a, b, c, d, e, f, g, h]).bind fun point => cons point (readBasic rest)
  | '\\' :: c :: rest => (escaped? c).bind fun meant => cons meant (readBasic rest)
  | c :: rest => if isPrintable c then cons c (readBasic rest) else none

/-- A string in single quotes, where nothing is escaped. -/
def readLiteral : Text → Option (Text × Text)
  | [] => none
  | '\'' :: rest => some ([], rest)
  | c :: rest => if isPrintable c then cons c (readLiteral rest) else none

/-- Whether nothing but blanks stands before the end of the line. -/
def endsLine (text : Text) : Bool :=
  match text.dropWhile fun c => c == ' ' || c == '\t' with
  | '\n' :: _ => true
  | '\r' :: '\n' :: _ => true
  | _ => false

/-- A string between triple double quotes. A backslash at the end of a line takes away the blanks and
line ends up to the next character; `skipping` says that they are being taken away. Two quotes more
than the closing ones belong to the string. -/
def readLongBasic : (skipping : Bool) → Text → Option (Text × Text)
  | _, [] => none
  | _, '"' :: '"' :: '"' :: '"' :: '"' :: rest => some (['"', '"'], rest)
  | _, '"' :: '"' :: '"' :: '"' :: rest => some (['"'], rest)
  | _, '"' :: '"' :: '"' :: rest => some ([], rest)
  | skipping, '\r' :: '\n' :: rest =>
    if skipping then readLongBasic true rest else cons '\n' (readLongBasic false rest)
  | _, '\\' :: 'u' :: a :: b :: c :: d :: rest =>
    (codePoint? [a, b, c, d]).bind fun point => cons point (readLongBasic false rest)
  | _, '\\' :: 'U' :: a :: b :: c :: d :: e :: f :: g :: h :: rest =>
    (codePoint? [a, b, c, d, e, f, g, h]).bind fun point =>
      cons point (readLongBasic false rest)
  | _, '\\' :: c :: rest =>
    if endsLine (c :: rest) then readLongBasic true (c :: rest)
    else (escaped? c).bind fun meant => cons meant (readLongBasic false rest)
  | skipping, c :: rest =>
    if skipping && (c == ' ' || c == '\t' || c == '\n') then readLongBasic true rest
    else if isPrintable c || c == '\n' then cons c (readLongBasic false rest)
    else none

/-- A string between triple single quotes. -/
def readLongLiteral : Text → Option (Text × Text)
  | [] => none
  | '\'' :: '\'' :: '\'' :: '\'' :: '\'' :: rest => some (['\'', '\''], rest)
  | '\'' :: '\'' :: '\'' :: '\'' :: rest => some (['\''], rest)
  | '\'' :: '\'' :: '\'' :: rest => some ([], rest)
  | '\r' :: '\n' :: rest => cons '\n' (readLongLiteral rest)
  | c :: rest => if isPrintable c || c == '\n' then cons c (readLongLiteral rest) else none

/-- Drop the line end behind opening triple quotes. -/
def dropLineEnd : Text → Text
  | '\n' :: rest => rest
  | '\r' :: '\n' :: rest => rest
  | text => text

/-- Digits without the underscores between them. -/
def plainDigits? (isDigit : Char → Bool) (text : Text) : Option Text :=
  let groups := text.splitOn '_'
  if groups.all fun group => !group.isEmpty && group.all isDigit then some groups.flatten else none

/-- Digits without a zero in front of others. -/
def wholeDigits? (text : Text) : Option Text :=
  (plainDigits? Char.isDigit text).filter fun digits => digits.length == 1 || digits.head? != some '0'

/-- A sign, and what follows it. -/
def splitSign : Text → Bool × Text
  | '-' :: rest => (true, rest)
  | '+' :: rest => (false, rest)
  | text => (false, text)

/-- A number in a base that its second character names. -/
def readBased? (digit? : Char → Option Nat) (base : Nat) (text : Text) : Option Int :=
  ((plainDigits? (fun c => (digit? c).any (· < base)) text).bind (numeral? digit? base)).map Int.ofNat

/-- A whole number of 64 bits. -/
def readInteger? (text : Text) : Option Int :=
  let read : Option Int :=
    match text with
    | '0' :: 'x' :: digits => readBased? hexDigit? 16 digits
    | '0' :: 'o' :: digits => readBased? hexDigit? 8 digits
    | '0' :: 'b' :: digits => readBased? hexDigit? 2 digits
    | _ =>
      let (negative, digits) := splitSign text
      ((wholeDigits? digits).bind (numeral? hexDigit? 10)).map fun n =>
        if negative then -n else n
  read.filter fun n => -0x8000000000000000 ≤ n && n < 0x8000000000000000

/-- The exponent of a number, without underscores. -/
def exponent? (text : Text) : Option Text :=
  let (negative, digits) := splitSign text
  (plainDigits? Char.isDigit digits).map fun digits =>
    'e' :: (if negative then '-' :: digits else digits)

/-- A number with a fraction or an exponent. One that is too large is refused. -/
def readFraction? (text : Text) : Option Float :=
  let (negative, text) := splitSign text
  let whole := text.takeWhile fun c => c.isDigit || c == '_'
  let (fraction, rest) : Option Text × Text :=
    match text.drop whole.length with
    | '.' :: rest =>
      let digits := rest.takeWhile fun c => c.isDigit || c == '_'
      ((plainDigits? Char.isDigit digits).map ('.' :: ·), rest.drop digits.length)
    | rest => (some [], rest)
  let power : Option Text :=
    match rest with
    | [] => some []
    | mark :: rest => if mark == 'e' || mark == 'E' then exponent? rest else none
  match wholeDigits? whole, fraction, power with
  | some whole, some fraction, some power =>
    if fraction.isEmpty && power.isEmpty then none
    else
      ((Decimal.read? (whole ++ fraction ++ power)).map fun x => if negative then -x else x).filter
        fun x => x < 1 / 0
  | _, _, _ => none

/-- Infinity and what is no number. -/
def readSpecial? (text : Text) : Option Float :=
  let (_, word) := splitSign text
  if word == "inf".toList || word == "nan".toList then Decimal.read? text else none

def read? (text : Text) : Option Toml :=
  if text == "true".toList then some (.boolean true)
  else if text == "false".toList then some (.boolean false)
  else match readInteger? text, readFraction? text, readSpecial? text with
    | some n, _, _ => some (.integer n)
    | none, some x, _ => some (.float x)
    | none, none, some x => some (.float x)
    | none, none, none => none

end MissionScript.TomlScalar
