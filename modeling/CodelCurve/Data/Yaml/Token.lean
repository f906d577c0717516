import CodelCurve.Data.Yaml.Property
import CodelCurve.Data.Yaml.Scalar

/-! The tokens of a YAML document. In block style tokens tell where lists and maps begin and end, as their columns
show. That something is a key shows only at the colon after it: until then it is kept in mind as one that might be,
and the tokens that make it a key are put in front of it. A key stands on one line and is not long. -/

namespace CodelCurve.Yaml

/-- A token of a document. -/
inductive Token where
  | directive (d : Directive)
  | documentStart
  | documentEnd
  | listStart
  | mapStart
  /-- A list or a map in block style ends. -/
  | blockEnd
  | flowListStart
  | flowListEnd
  | flowMapStart
  | flowMapEnd
  | blockEntry
  | flowEntry
  | key
  | value
  | alias (name : String)
  | anchor (name : String)
  | tag (t : ShortTag)
  | scalar (text : List Char) (style : Style)
  deriving DecidableEq, Repr

/-- Something that might be a key. -/
structure PossibleKey where
  /-- The number of tokens before it. -/
  number : Nat
  place : Place
  /-- It stands where nothing but a key can stand. -/
  required : Bool

namespace PossibleKey

/-- The greatest length of a key in bytes. -/
def greatestLength : Nat := 1024

/-- The colon was missing for too long. -/
def isStale (k : PossibleKey) (p : Place) : Bool :=
  k.place.line < p.line || k.place.bytes + greatestLength < p.bytes

end PossibleKey

/-- Tokens that were read, and what is needed to read on. -/
structure Scan where
  cursor : Cursor
  /-- The tokens read, the last first. -/
  tokens : List Token
  /-- The number of tokens read. -/
  count : Nat
  /-- The column of the innermost list or map in block style, or less than zero. -/
  indent : Int
  /-- The columns of those around it, the innermost first. -/
  outerIndents : List Int
  /-- What might be a key, if anything. -/
  key : Option PossibleKey
  /-- What might be a key in each list and map around this one in flow style, the innermost first. -/
  outerKeys : List (Option PossibleKey)
  /-- A key may begin here. -/
  keyAllowed : Bool

namespace Scan

def start (text : List Char) : Scan := ⟨⟨text, 0, 0, 0⟩, [], 0, -1, [], none, [], true⟩

/-- The text here is in flow style. -/
def flow (s : Scan) : Bool := !s.outerKeys.isEmpty

def column (s : Scan) : Int := s.cursor.place.column

/-- Adds a token. -/
def push (s : Scan) (t : Token) : Scan := { s with tokens := t :: s.tokens, count := s.count + 1 }

/-- Adds a token before those from a number on. -/
def insert (s : Scan) (number : Nat) (t : Token) : Scan :=
  let later := s.count - number
  { s with tokens := s.tokens.take later ++ t :: s.tokens.drop later, count := s.count + 1 }

/-- Passes over characters and sets whether a key may begin after them. -/
def pass (s : Scan) (n : Nat) (keyAllowed : Bool) : Scan := { s with cursor := s.cursor.pass n, keyAllowed }

/-- Passes over what separates tokens. -/
def skip (s : Scan) : Scan :=
  let (keyAllowed, cursor) := s.cursor.skip s.flow s.keyAllowed
  { s with cursor, keyAllowed }

/-- Gives up what might have been a key, unless it has to be one. -/
def dropKey? (s : Scan) : Option Scan :=
  if s.key.any PossibleKey.required then none else some { s with key := none }

/-- Keeps what begins here in mind as what might be a key. -/
def saveKey? (s : Scan) : Option Scan :=
  if s.keyAllowed then
    s.dropKey?.map fun s =>
      { s with key := some ⟨s.count, s.cursor.place, !s.flow && decide (s.indent = s.column)⟩ }
  else some s

/-- Gives up all that can no longer be a key, unless it has to be one. -/
def dropStaleKeys? (s : Scan) : Option Scan :=
  let isStale (k : PossibleKey) : Bool := k.isStale s.cursor.place
  let fresh (k : Option PossibleKey) : Option PossibleKey := k.filter fun k => !isStale k
  if (s.key :: s.outerKeys).any fun k => k.any fun k => isStale k && k.required then none
  else some { s with key := fresh s.key, outerKeys := s.outerKeys.map fresh }

/-- The column that a column is closed at, with the columns around it and the number of those closed. -/
def unrolled (column : Int) : Int → List Int → Int × List Int × Nat
  | indent, [] => (indent, [], 0)
  | indent, outer :: rest =>
    if column < indent then
      let (indent, outers, n) := unrolled column outer rest
      (indent, outers, n + 1)
    else (indent, outer :: rest, 0)

/-- Ends the lists and maps in block style that stand beyond a column. -/
def unroll (s : Scan) (column : Int) : Scan :=
  if s.flow then s
  else
    let (indent, outerIndents, n) := unrolled column s.indent s.outerIndents
    { s with
      indent, outerIndents, tokens := List.replicate n Token.blockEnd ++ s.tokens, count := s.count + n }

/-- Begins a list or a map in block style at a column, unless it has begun, before the tokens from a number on. -/
def roll (s : Scan) (column : Int) (number : Nat) (t : Token) : Scan :=
  if !s.flow && s.indent < column then
    { s.insert number t with indent := column, outerIndents := s.indent :: s.outerIndents }
  else s

/-- Reads a directive. -/
def readDirective? (s : Scan) : Option Scan := do
  let s ← (s.unroll (-1)).dropKey?
  let (d, cursor) ← directive s.cursor.next
  return { s with cursor, keyAllowed := false }.push (.directive d)

/-- Reads the mark of a document. -/
def readBoundary? (s : Scan) (t : Token) : Option Scan := do
  let s ← (s.unroll (-1)).dropKey?
  return (s.pass 3 false).push t

/-- Reads the bracket that begins a list or a map in flow style. -/
def readFlowStart? (s : Scan) (t : Token) : Option Scan := do
  let s ← s.saveKey?
  return ({ s with key := none, outerKeys := s.key :: s.outerKeys }.pass 1 true).push t

/-- Reads the bracket that ends a list or a map in flow style. -/
def readFlowEnd? (s : Scan) (t : Token) : Option Scan := do
  let s ← s.dropKey?
  let s := match s.outerKeys with
    | [] => s
    | key :: outerKeys => { s with key, outerKeys }
  return (s.pass 1 false).push t

def readFlowEntry? (s : Scan) : Option Scan := do
  let s ← s.dropKey?
  return (s.pass 1 true).push .flowEntry

/-- Reads the mark of an entry of a list in block style. -/
def readBlockEntry? (s : Scan) : Option Scan := do
  if !s.flow && !s.keyAllowed then none
  let s ← (s.roll s.column s.count .listStart).dropKey?
  return (s.pass 1 true).push .blockEntry

/-- Reads the mark of a key that is told by it. -/
def readKey? (s : Scan) : Option Scan := do
  if !s.flow && !s.keyAllowed then none
  let s ← (s.roll s.column s.count .mapStart).dropKey?
  return (s.pass 1 (!s.flow)).push .key

/-- Reads the colon before a value. What might be a key becomes one. -/
def readValue? (s : Scan) : Option Scan :=
  match s.key with
  | some k =>
    let s := (s.insert k.number .key).roll k.place.column k.number .mapStart
    some (({ s with key := none }.pass 1 false).push .value)
  | none =>
    if !s.flow && !s.keyAllowed then none
    else some (((s.roll s.column s.count .mapStart).pass 1 (!s.flow)).push .value)

/-- Reads the name of an anchor, of which the token is made. -/
def readAnchor? (s : Scan) (t : String → Token) : Option Scan := do
  let s ← s.saveKey?
  let (name, cursor) ← anchorName s.cursor.next
  return { s with cursor, keyAllowed := false }.push (t name)

def readTag? (s : Scan) : Option Scan := do
  let s ← s.saveKey?
  let (tag, cursor) ← shortTag s.flow s.cursor
  return { s with cursor, keyAllowed := false }.push (.tag tag)

def readBlockScalar? (s : Scan) (style : Style) : Option Scan := do
  let s ← s.dropKey?
  let (text, cursor) ← blockScalar (style = .folded) s.indent s.cursor.next
  return { s with cursor, keyAllowed := true }.push (.scalar text style)

def readQuoted? (s : Scan) (style : Style) : Option Scan := do
  let s ← s.saveKey?
  let c := s.cursor.next
  let (text, cursor) ← if style = .single then singleFrom [] .nothing c.place c.rest
    else doubleFrom .character [] .nothing c.place c.rest
  return { s with cursor, keyAllowed := false }.push (.scalar text style)

/-- Reads a plain scalar. After a line break a key may begin. -/
def readPlain? (s : Scan) : Option Scan := do
  let s ← s.saveKey?
  let (text, keyAllowed, cursor) ← plainFrom s.flow (s.indent + 1) [] .nothing s.cursor.place s.cursor.rest
  return { s with cursor, keyAllowed }.push (.scalar text .plain)

/-- Reads the token that begins with a character. -/
def read? (s : Scan) (c : Char) (rest : List Char) : Option Scan :=
  if c == '%' && s.column = 0 then s.readDirective?
  else if s.cursor.atMark "---" then s.readBoundary? .documentStart
  else if s.cursor.atMark "..." then s.readBoundary? .documentEnd
  else if c == '[' then s.readFlowStart? .flowListStart
  else if c == '\x7b' then s.readFlowStart? .flowMapStart
  else if c == ']' then s.readFlowEnd? .flowListEnd
  else if c == '\x7d' then s.readFlowEnd? .flowMapEnd
  else if c == ',' then s.readFlowEntry?
  else if c == '-' && endsWord rest then s.readBlockEntry?
  else if c == '?' && (s.flow || endsWord rest) then s.readKey?
  else if c == ':' && (s.flow || endsWord rest) then s.readValue?
  else if c == '*' then s.readAnchor? .alias
  else if c == '&' then s.readAnchor? .anchor
  else if c == '!' then s.readTag?
  else if c == '|' && !s.flow then s.readBlockScalar? .literal
  else if c == '>' && !s.flow then s.readBlockScalar? .folded
  else if c == '\x27' then s.readQuoted? .single
  else if c == '"' then s.readQuoted? .double
  else if beginsPlain s.flow (c :: rest) then s.readPlain?
  else none

/-- Reads all tokens. The number bounds how many there are. -/
def all? : Nat → Scan → Option (List Token)
  | 0, _ => none
  | bound + 1, s => do
    let s ← s.skip.dropStaleKeys?
    let s := s.unroll s.column
    match s.cursor.rest with
    | [] =>
      let s ← (s.unroll (-1)).dropKey?
      return s.tokens.reverse
    | c :: rest => all? bound (← s.read? c rest)

end Scan

/-- The tokens of a text. -/
def Token.scan (text : List Char) : Option (List Token) :=
  if text.all isReadable then
    let text := unifyBreaks text
    Scan.all? (text.length + 1) (Scan.start text)
  else none

end CodelCurve.Yaml
