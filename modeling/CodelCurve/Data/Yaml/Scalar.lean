import CodelCurve.Data.Yaml.Cursor
import CodelCurve.Text.Digits

/-! The scalars of a YAML document, in their five styles. Where a scalar goes over several lines its line breaks
are folded, except in literal style. -/

namespace CodelCurve.Yaml

/-- The styles of scalars. -/
inductive Style where
  | plain
  | single
  | double
  | literal
  | folded
  deriving DecidableEq, Repr

/-- What stands between two words of a scalar. -/
inductive Gap where
  | blanks (text : List Char)
  /-- The first line break, unless it is escaped, and those after it. -/
  | breaks (first more : List Char)

namespace Gap

def nothing : Gap := blanks []

def isNothing : Gap → Bool
  | blanks text => text.isEmpty
  | breaks _ _ => false

def hasBreak : Gap → Bool
  | blanks _ => false
  | breaks _ _ => true

/-- The gap with a blank after it. Blanks at the beginning of a line do not count. -/
def withBlank (c : Char) : Gap → Gap
  | blanks text => blanks (text ++ [c])
  | breaks first more => breaks first more

/-- The gap with a line break after it. Blanks at the end of a line do not count. -/
def withBreak (c : Char) : Gap → Gap
  | blanks _ => breaks [c] []
  | breaks first more => breaks first (more ++ [c])

/-- What a gap stands for: a single line break is a blank, and of more the first is dropped, unless it is a
separator. -/
def text : Gap → List Char
  | blanks text => text
  | breaks ['\n'] [] => [' ']
  | breaks ['\n'] more => more
  | breaks first more => first ++ more

/-- The characters read so far and the gap after them, the last first. -/
def onto (g : Gap) (done : List Char) : List Char := g.text.reverse ++ done

end Gap

/-- The characters that shape flow style. -/
def isFlowMark (c : Char) : Bool := c == ',' || c == '[' || c == ']' || c == '\x7b' || c == '\x7d'

/-- A plain scalar can begin here. -/
def beginsPlain (flow : Bool) : List Char → Bool
  | [] => false
  | '-' :: rest => !endsWord rest
  | '?' :: rest => !flow && !endsWord rest
  | ':' :: rest => !flow && !endsWord rest
  | c :: _ => !(isBlank c || isBreak c || isFlowMark c || "#&*!|>'\"%@`".toList.contains c)

/-- Reads a plain scalar. What was read so far, the last first, and the gap after it are given. In block style it goes
on only on lines that begin in a column or beyond it. The answer also says whether line breaks follow. -/
def plainFrom (flow : Bool) (indent : Int) :
    (done : List Char) → Gap → Place → List Char → Option (List Char × Bool × Cursor)
  | done, gap, p, [] => some (done.reverse, gap.hasBreak, ⟨[], p⟩)
  | done, gap, p, c :: rest =>
    let here : Cursor := ⟨c :: rest, p⟩
    let stop := some (done.reverse, gap.hasBreak, here)
    if isBreak c then plainFrom flow indent done (gap.withBreak c) p.below rest
    else if isBlank c then
      if c == '\t' && gap.hasBreak && (p.column : Int) < indent then none
      else plainFrom flow indent done (gap.withBlank c) (p.ahead c) rest
    else if !gap.isNothing && (c == '#' || here.atBoundary || (!flow && (p.column : Int) < indent)) then stop
    else if flow && c == ':' && rest.head?.any (fun d => isFlowMark d || d == '?') then none
    else if (c == ':' && endsWord rest) || (flow && isFlowMark c) then stop
    else plainFrom flow indent (c :: gap.onto done) .nothing (p.ahead c) rest

/-- Reads a scalar in single quotes after the opening quote. A quote inside is written twice. -/
def singleFrom : (done : List Char) → Gap → Place → List Char → Option (List Char × Cursor)
  | _, _, _, [] => none
  | done, gap, p, '\x27' :: '\x27' :: rest =>
    singleFrom ('\x27' :: gap.onto done) .nothing ((p.ahead '\x27').ahead '\x27') rest
  | done, gap, p, c :: rest =>
    if isBreak c then singleFrom done (gap.withBreak c) p.below rest
    else if isBlank c then singleFrom done (gap.withBlank c) (p.ahead c) rest
    else if Cursor.atBoundary ⟨c :: rest, p⟩ then none
    else if c == '\x27' then some ((gap.onto done).reverse, ⟨rest, p.ahead c⟩)
    else singleFrom (c :: gap.onto done) .nothing (p.ahead c) rest

/-- The character that a letter stands for after a backslash. -/
def escaped? : Char → Option Char
  | '0' => some '\x00'
  | 'a' => some '\x07'
  | 'b' => some '\x08'
  | 't' => some '\t'
  | '\t' => some '\t'
  | 'n' => some '\n'
  | 'v' => some '\x0b'
  | 'f' => some '\x0c'
  | 'r' => some '\r'
  | 'e' => some '\x1b'
  | ' ' => some ' '
  | '"' => some '"'
  | '/' => some '/'
  | '\\' => some '\\'
  | 'N' => some '\u0085'
  | '_' => some '\u00a0'
  | 'L' => some '\u2028'
  | 'P' => some '\u2029'
  | _ => none

/-- How many hexadecimal digits follow a letter after a backslash. -/
def hexWidth : Char → Nat
  | 'x' => 2
  | 'u' => 4
  | 'U' => 8
  | _ => 0

/-- What comes next in a scalar in double quotes. -/
inductive Expect where
  | character
  /-- The letter after a backslash. -/
  | letter
  /-- The given number of hexadecimal digits, after digits of the given value. -/
  | digits (missing value : Nat)

/-- Reads a scalar in double quotes after the opening quote. -/
def doubleFrom : Expect → (done : List Char) → Gap → Place → List Char → Option (List Char × Cursor)
  | _, _, _, _, [] => none
  | .digits missing value, done, gap, p, c :: rest =>
    match Text.digitValue? c with
    | none => none
    | some v =>
      let value := value * 16 + v
      if 1 < missing then doubleFrom (.digits (missing - 1) value) done gap (p.ahead c) rest
      else if value.isValidChar then doubleFrom .character (Char.ofNat value :: done) gap (p.ahead c) rest
      else none
  | .letter, done, gap, p, c :: rest =>
    if isBreak c then doubleFrom .character done (.breaks [] []) p.below rest
    else
      match escaped? c with
      | some e => doubleFrom .character (e :: done) gap (p.ahead c) rest
      | none =>
        if hexWidth c = 0 then none
        else doubleFrom (.digits (hexWidth c) 0) done gap (p.ahead c) rest
  | .character, done, gap, p, c :: rest =>
    if isBreak c then doubleFrom .character done (gap.withBreak c) p.below rest
    else if isBlank c then doubleFrom .character done (gap.withBlank c) (p.ahead c) rest
    else if Cursor.atBoundary ⟨c :: rest, p⟩ then none
    else if c == '"' then some ((gap.onto done).reverse, ⟨rest, p.ahead c⟩)
    else if c == '\\' then doubleFrom .letter (gap.onto done) .nothing (p.ahead c) rest
    else doubleFrom .character (c :: gap.onto done) .nothing (p.ahead c) rest
termination_by structural _ _ _ _ text => text

/-- What becomes of the line breaks at the end of a scalar in block style. -/
inductive Ending where
  /-- The last line keeps its break. -/
  | clip
  | strip
  | keep

/-- The ending that a character asks for. -/
def Ending.ofChar? : Char → Option Ending
  | '+' => some keep
  | '-' => some strip
  | _ => none

/-- Reads the ending of a scalar in block style. -/
def blockEnding (c : Cursor) : Ending × Cursor :=
  match c.rest.head?.bind Ending.ofChar? with
  | some e => (e, c.next)
  | none => (.clip, c)

/-- Reads the indentation of a scalar in block style, which is zero when none is given and must not be given as
zero. -/
def blockIndent (c : Cursor) : Option (Nat × Cursor) :=
  match c.rest with
  | d :: _ =>
    if d == '0' then none
    else if Text.isDigit d then some (Text.decimal [d], c.next)
    else some (0, c)
  | [] => some (0, c)

/-- Reads the ending and the indentation of a scalar in block style, in either order. -/
def blockHead (c : Cursor) : Option (Ending × Nat × Cursor) := do
  match blockEnding c with
  | (.clip, c) =>
    let (indent, c) ← blockIndent c
    let (ending, c) := if indent = 0 then (.clip, c) else blockEnding c
    return (ending, indent, c)
  | (ending, c) =>
    let (indent, c) ← blockIndent c
    return (ending, indent, c)

/-- Passes over empty lines and over the indentation of the line after them, which ends at a column unless that is
zero. The answer holds the line breaks and the greatest column reached. -/
def emptyLines (indent : Nat) :
    (breaks : List Char) → (deepest : Nat) → Place → List Char → Option (List Char × Nat × Cursor)
  | breaks, deepest, p, [] => some (breaks, max deepest p.column, ⟨[], p⟩)
  | breaks, deepest, p, c :: rest =>
    let inside := indent = 0 || p.column < indent
    if c == ' ' && inside then emptyLines indent breaks deepest (p.ahead c) rest
    else if c == '\t' && inside then none
    else if isBreak c then emptyLines indent (breaks ++ [c]) (max deepest p.column) p.below rest
    else some (breaks, max deepest p.column, ⟨c :: rest, p⟩)

/-- What was read of a scalar in block style: its text, the break of its last line and the empty lines after it. -/
structure BlockText where
  text : List Char
  last : List Char
  empty : List Char
  /-- The last line begins with a blank. -/
  indented : Bool

namespace BlockText

/-- The text up to a line that follows. Between lines that are not indented further a break is folded. -/
def joined (b : BlockText) (folded indented : Bool) : List Char :=
  if folded && b.last == ['\n'] && !b.indented && !indented then
    b.text ++ (if b.empty.isEmpty then [' '] else []) ++ b.empty
  else b.text ++ b.last ++ b.empty

/-- The text with its ending. -/
def ended (b : BlockText) : Ending → List Char
  | .strip => b.text
  | .clip => b.text ++ b.last
  | .keep => b.text ++ b.last ++ b.empty

end BlockText

/-- Reads the lines of a scalar in block style that begin in a column. The first number bounds how many there are. -/
def blockLines (folded : Bool) (indent : Nat) : Nat → BlockText → Cursor → Option (BlockText × Cursor)
  | 0, _, _ => none
  | bound + 1, b, c =>
    if c.place.column != indent || c.rest.isEmpty then some (b, c)
    else
      let line := c.rest.takeWhile fun c => !isBreak c
      let indented := line.head?.any isBlank
      let after := c.pass line.length
      let last := after.rest.take 1
      let after := if last.isEmpty then after else after.nextLine
      match emptyLines indent [] 0 after.place after.rest with
      | none => none
      | some (empty, _, after) =>
        blockLines folded indent bound ⟨b.joined folded indented ++ line, last, empty, indented⟩ after

/-- Reads a scalar in block style after its mark, below something that stands in a column. -/
def blockScalar (folded : Bool) (parent : Int) (c : Cursor) : Option (List Char × Cursor) := do
  let (ending, given, c) ← blockHead c
  let c ← c.endLine?
  let given := if given = 0 then 0 else (max parent 0).toNat + given
  let (empty, deepest, c) ← emptyLines given [] 0 c.place c.rest
  let indent := if given = 0 then max deepest (max 1 (parent + 1).toNat) else given
  let (b, c) ← blockLines folded indent (c.rest.length + 1) ⟨[], [], empty, false⟩ c
  return (b.ended ending, c)

end CodelCurve.Yaml
