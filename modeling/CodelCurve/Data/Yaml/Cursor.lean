/-! The text of a YAML document as it is read: its characters in lines and columns, and the blanks, line breaks
and comments between what it says. -/

namespace CodelCurve.Yaml

/-- The characters that a text may hold. -/
def isReadable (c : Char) : Bool :=
  let n := c.toNat
  n == 0x09 || n == 0x0A || n == 0x0D || (0x20 ≤ n && n ≤ 0x7E) || n == 0x85 || (0xA0 ≤ n && n ≤ 0xD7FF)
    || (0xE000 ≤ n && n ≤ 0xFFFD) || 0x10000 ≤ n

/-- A text in which one character stands for every line break that means no more than that. The separators of
lines and of paragraphs stay as they are. -/
def unifyBreaks : List Char → List Char
  | '\r' :: '\n' :: rest => '\n' :: unifyBreaks rest
  | '\r' :: rest => '\n' :: unifyBreaks rest
  | '\u0085' :: rest => '\n' :: unifyBreaks rest
  | c :: rest => c :: unifyBreaks rest
  | [] => []

/-- A line ends here. -/
def isBreak (c : Char) : Bool := c == '\n' || c == '\u2028' || c == '\u2029'

def isBlank (c : Char) : Bool := c == ' ' || c == '\t'

/-- A blank, a line break or the end of the text comes next. -/
def endsWord : List Char → Bool
  | [] => true
  | c :: _ => isBlank c || isBreak c

/-- The mark that may stand before the first character of a line and counts as a column. -/
def byteOrderMark : Char := '\ufeff'

/-- The line and the column of a character. -/
structure Place where
  line : Nat
  column : Nat
  /-- The number of bytes before it on its line. -/
  bytes : Nat

namespace Place

/-- Behind a character that is no line break. -/
def ahead (p : Place) (c : Char) : Place := ⟨p.line, p.column + 1, p.bytes + c.utf8Size⟩

/-- The beginning of the next line. -/
def below (p : Place) : Place := ⟨p.line + 1, 0, 0⟩

end Place

/-- What is left of a text, and where it begins. -/
structure Cursor where
  rest : List Char
  place : Place

namespace Cursor

/-- A number of characters further on the same line. -/
def pass (c : Cursor) (n : Nat) : Cursor := ⟨c.rest.drop n, (c.rest.take n).foldl Place.ahead c.place⟩

/-- One character further on the same line. -/
def next (c : Cursor) : Cursor := c.pass 1

/-- One line break further. -/
def nextLine (c : Cursor) : Cursor := ⟨c.rest.drop 1, c.place.below⟩

/-- Passes over the characters of a kind, none of which is a line break. -/
def passWhile (c : Cursor) (kind : Char → Bool) : Cursor := c.pass (c.rest.takeWhile kind).length

/-- Passes over the blanks and the comment that may end a line, and over its break. Nothing else may be left. -/
def endLine? (c : Cursor) : Option Cursor :=
  let c := c.passWhile isBlank
  let c := if c.rest.head? = some '#' then c.passWhile fun c => !isBreak c else c
  match c.rest with
  | [] => some c
  | b :: _ => if isBreak b then some c.nextLine else none

/-- A line that begins or ends a document comes next. -/
def atMark (c : Cursor) (mark : String) : Bool :=
  c.place.column == 0 && mark.toList.isPrefixOf c.rest && endsWord (c.rest.drop 3)

/-- The document has no more lines. -/
def atBoundary (c : Cursor) : Bool := c.atMark "---" || c.atMark "..."

/-- Passes over blanks, line breaks and comments. The answer also says whether a key may begin where they end: in
block style it may at the beginning of a line. Tabs are passed over where no key may begin, for there they cannot be
taken for indentation. -/
def skipFrom (flow : Bool) : (keyAllowed comment : Bool) → Place → List Char → Bool × Cursor
  | keyAllowed, _, p, [] => (keyAllowed, ⟨[], p⟩)
  | keyAllowed, comment, p, c :: rest =>
    if isBreak c then skipFrom flow (keyAllowed || !flow) false p.below rest
    else if comment then skipFrom flow keyAllowed true (p.ahead c) rest
    else if c == byteOrderMark && p.column == 0 then skipFrom flow keyAllowed false (p.ahead c) rest
    else if c == ' ' || (c == '\t' && (flow || !keyAllowed)) then skipFrom flow keyAllowed false (p.ahead c) rest
    else if c == '#' then skipFrom flow keyAllowed true (p.ahead c) rest
    else (keyAllowed, ⟨c :: rest, p⟩)

def skip (c : Cursor) (flow keyAllowed : Bool) : Bool × Cursor := skipFrom flow keyAllowed false c.place c.rest

end Cursor

end CodelCurve.Yaml
