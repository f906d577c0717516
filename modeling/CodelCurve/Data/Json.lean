import CodelCurve.Data.Datum
import CodelCurve.Text.Digits

/-! The JSON text of values. Keys that are integers are written, and read, as integers in quotes. Writing puts
each member and element on a line of its own, two blanks further in than what encloses it. A text is read byte by
byte, each as the character of its number, and only what stands in quotes is put together to characters; what is no
well-formed text there is kept as bytes. -/

namespace CodelCurve.Json

open Text (isDigit decimal digitValue?)

/-- The blanks that may stand between the parts of a text. -/
def isSpace (c : Char) : Bool := c == ' ' || c == '\n' || c == '\t' || c == '\r'

/-- A text without the blanks in front of it. -/
def skip (text : List Char) : List Char := text.dropWhile isSpace

/-- Reads a natural number: zero, or digits that do not begin with zero. -/
def natural : List Char → Option (Nat × List Char)
  | '0' :: rest => some (0, rest)
  | text =>
    let digits := text.takeWhile isDigit
    if digits.isEmpty then none else some (decimal digits, text.dropWhile isDigit)

/-- Reads at least one digit and drops the digits. -/
def fraction (text : List Char) : Option (List Char) :=
  match text with
  | c :: rest => if isDigit c then some (rest.dropWhile isDigit) else none
  | [] => none

/-- Reads the exponent of a number after its mark. -/
def exponent : List Char → Option (List Char)
  | '+' :: rest => fraction rest
  | '-' :: rest => fraction rest
  | text => fraction text

/-- What follows the integer part of a number, and whether there is a fraction or an exponent. -/
def tail (text : List Char) : Option (Bool × List Char) :=
  let afterPoint : Option (Bool × List Char) :=
    match text with
    | '.' :: rest => (fraction rest).map fun r => (true, r)
    | _ => some (false, text)
  match afterPoint with
  | some (_, 'e' :: rest) => (exponent rest).map fun r => (true, r)
  | some (_, 'E' :: rest) => (exponent rest).map fun r => (true, r)
  | other => other

/-- The value of a number with an integer part. A negative zero is no integer. -/
def numberValue (negative : Bool) (n : Nat) (isReal : Bool) : Datum :=
  if isReal then .real
  else if negative then (if n = 0 then .real else .int (-(n : Int)))
  else .nat n

def number (text : List Char) : Option (Datum × List Char) :=
  let (negative, digits) := match text with
    | '-' :: rest => (true, rest)
    | _ => (false, text)
  match natural digits with
  | none => none
  | some (n, rest) => (tail rest).map fun (isReal, rest) => (numberValue negative n isReal, rest)

/-- The number of four hexadecimal digits. -/
def hex4? (a b c d : Char) : Option Nat := do
  return (((← digitValue? a) * 16 + (← digitValue? b)) * 16 + (← digitValue? c)) * 16 + (← digitValue? d)

def isHighSurrogate (n : Nat) : Bool := 0xD800 ≤ n && n ≤ 0xDBFF

def isLowSurrogate (n : Nat) : Bool := 0xDC00 ≤ n && n ≤ 0xDFFF

/-- The character that a letter stands for after a backslash. -/
def escaped? : Char → Option Char
  | '"' => some '"'
  | '\\' => some '\\'
  | '/' => some '/'
  | 'b' => some '\x08'
  | 'f' => some '\x0c'
  | 'n' => some '\n'
  | 'r' => some '\r'
  | 't' => some '\t'
  | _ => none

/-- The byte that stands for half a character by itself. No well-formed text holds it. -/
def loneHalf : UInt8 := 0xff

/-- What is left of the first half of a character that the second half does not follow. -/
def orphan : Option Nat → List UInt8
  | some _ => [loneHalf]
  | none => []

/-- The character of two halves. -/
def paired (high low : Nat) : Char := Char.ofNat (0x10000 + (high - 0xD800) * 0x400 + (low - 0xDC00))

/-- Reads the bytes of a string, and the closing quote. Characters beyond the first plane are escaped as two halves,
of which the first may be given. -/
def stringFrom : (half : Option Nat) → List Char → Option (List UInt8 × List Char)
  | _, [] => none
  | half, '"' :: rest => some (orphan half, rest)
  | half, '\\' :: 'u' :: a :: b :: c :: d :: rest =>
    match hex4? a b c d with
    | none => none
    | some n =>
      if isHighSurrogate n then (stringFrom (some n) rest).map fun (s, r) => (orphan half ++ s, r)
      else if isLowSurrogate n then
        let bytes := match half with
          | some high => String.utf8EncodeChar (paired high n)
          | none => [loneHalf]
        (stringFrom none rest).map fun (s, r) => (bytes ++ s, r)
      else (stringFrom none rest).map fun (s, r) => (orphan half ++ String.utf8EncodeChar (Char.ofNat n) ++ s, r)
  | half, '\\' :: c :: rest =>
    match escaped? c with
    | some e => (stringFrom none rest).map fun (s, r) => (orphan half ++ String.utf8EncodeChar e ++ s, r)
    | none => none
  | half, c :: rest =>
    if c.toNat < 0x20 then none
    else (stringFrom none rest).map fun (s, r) => (orphan half ++ UInt8.ofNat c.toNat :: s, r)
termination_by structural _ text => text

/-- Reads the bytes of a string after its opening quote, and the closing quote. -/
def string (text : List Char) : Option (List UInt8 × List Char) := stringFrom none text

/-- Reads a key after its opening quote. -/
def key (text : List Char) : Option (Datum × List Char) :=
  let read := (string text).map fun (s, r) => (Datum.ofBytes s, r)
  match number text with
  | some (.nat n, '"' :: rest) => some (.nat n, rest)
  | some (.int n, '"' :: rest) => some (.int n, rest)
  | _ => read

/-- Reads the elements of a list and the closing bracket, given how an element is read. The number bounds how
many there are. -/
def elements (read : List Char → Option (Datum × List Char)) : Nat → List Char → Option (List Datum × List Char)
  | 0, _ => none
  | bound + 1, text =>
    match read text with
    | none => none
    | some (v, rest) =>
      match skip rest with
      | ',' :: rest => (elements read bound rest).map fun (vs, r) => (v :: vs, r)
      | ']' :: rest => some ([v], rest)
      | _ => none

/-- Reads the members of a map and the closing brace, given how a value is read. -/
def members (read : List Char → Option (Datum × List Char)) :
    Nat → List Char → Option (List (Datum × Datum) × List Char)
  | 0, _ => none
  | bound + 1, text =>
    match skip text with
    | '"' :: text =>
      match key text with
      | none => none
      | some (k, rest) =>
        match skip rest with
        | ':' :: rest =>
          match read rest with
          | none => none
          | some (v, rest) =>
            match skip rest with
            | ',' :: rest => (members read bound rest).map fun (ms, r) => ((k, v) :: ms, r)
            | '\x7d' :: rest => some ([(k, v)], rest)
            | _ => none
        | _ => none
    | _ => none

/-- Reads a value. The number bounds how deep values are nested. -/
def value : Nat → List Char → Option (Datum × List Char)
  | 0, _ => none
  | depth + 1, text =>
    match skip text with
    | 'n' :: 'u' :: 'l' :: 'l' :: rest => some (.null, rest)
    | 't' :: 'r' :: 'u' :: 'e' :: rest => some (.bool true, rest)
    | 'f' :: 'a' :: 'l' :: 's' :: 'e' :: rest => some (.bool false, rest)
    | '"' :: rest => (string rest).map fun (s, r) => (.ofBytes s, r)
    | '[' :: rest =>
      match skip rest with
      | ']' :: rest => some (.list [], rest)
      | rest => (elements (value depth) depth rest).map fun (vs, r) => (.list vs, r)
    | '\x7b' :: rest =>
      match skip rest with
      | '\x7d' :: rest => some (.map [], rest)
      | rest => (members (value depth) depth rest).map fun (ms, r) => (.map ms, r)
    | text => number text

/-- The value that the bytes of a whole text are. -/
def parse (bytes : List UInt8) : Option Datum :=
  let text := bytes.map fun b => Char.ofNat b.toNat
  match value (text.length + 1) text with
  | some (v, rest) => if (skip rest).isEmpty then some v else none
  | none => none

/-- A line break and the indentation of the line after it. -/
def newline (level : Nat) : List Char := '\n' :: List.replicate (2 * level) ' '

/-- The text of a character in a string. -/
def escape (c : Char) : List Char :=
  if c = '"' then ['\\', '"']
  else if c = '\\' then ['\\', '\\']
  else if c.toNat < 0x20 then
    '\\' :: 'u' :: '0' :: '0' :: (Nat.toDigits 16 (c.toNat / 16) ++ Nat.toDigits 16 (c.toNat % 16))
  else [c]

def quoted (text : List Char) : List Char := '"' :: text.flatMap escape ++ ['"']

/-- The text of a value that is neither list nor map. -/
def scalar : Datum → List Char
  | .bool true => "true".toList
  | .bool false => "false".toList
  | .nat n => (toString n).toList
  | .int n => (toString n).toList
  | .text s => quoted s.toList
  | _ => "null".toList

/-- The text of a key: an integer stands in quotes. -/
def keyText : Datum → List Char
  | .text s => quoted s.toList
  | other => '"' :: scalar other ++ ['"']

mutual

/-- The text of a value that stands at a level of indentation. -/
def render (level : Nat) : Datum → List Char
  | .list [] => ['[', ']']
  | .list (item :: rest) =>
    '[' :: newline (level + 1) ++ render (level + 1) item ++ renderItems (level + 1) rest ++ newline level ++ [']']
  | .map [] => ['\x7b', '\x7d']
  | .map ((k, v) :: rest) =>
    '\x7b' :: newline (level + 1) ++ keyText k ++ ':' :: ' ' :: render (level + 1) v
      ++ renderPairs (level + 1) rest ++ newline level ++ ['\x7d']
  | other => scalar other

/-- The elements after the first. -/
def renderItems (level : Nat) : List Datum → List Char
  | [] => []
  | item :: rest => ',' :: newline level ++ render level item ++ renderItems level rest

/-- The members after the first. -/
def renderPairs (level : Nat) : List (Datum × Datum) → List Char
  | [] => []
  | (k, v) :: rest =>
    ',' :: newline level ++ keyText k ++ ':' :: ' ' :: render level v ++ renderPairs level rest

end

/-- The text of a value. -/
def text (d : Datum) : String := String.ofList (render 0 d)

end CodelCurve.Json
