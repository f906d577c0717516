import CodelCurve.Data.Yaml.Cursor
import CodelCurve.Text.Digits

/-! Names in a YAML document: the anchors of nodes, their tags, and the directives before a document, which say what
short tags stand for. -/

namespace CodelCurve.Yaml

/-- The characters of names. -/
def isNameChar (c : Char) : Bool :=
  Text.isDigit c || ('a' ≤ c && c ≤ 'z') || ('A' ≤ c && c ≤ 'Z') || c == '_' || c == '-'

/-- Reads a name, which may be empty. -/
def name (c : Cursor) : List Char × Cursor := (c.rest.takeWhile isNameChar, c.passWhile isNameChar)

/-- Reads the name of an anchor after its mark. -/
def anchorName (c : Cursor) : Option (String × Cursor) :=
  let (chars, c) := name c
  if chars.isEmpty then none
  else if endsWord c.rest || c.rest.head?.any (fun d => "?:,]\x7d%@`".toList.contains d) then
    some (String.ofList chars, c)
  else none

/-- A tag as it is written: a handle, which stands for the front of the tag, and the rest. -/
structure ShortTag where
  handle : String
  suffix : String
  deriving DecidableEq, Repr

/-- The characters of the rest of a tag. Between angle brackets there are a few more. -/
def isTagChar (verbatim : Bool) (c : Char) : Bool :=
  isNameChar c || ";/?:@&=+$.!~*'()".toList.contains c || (verbatim && ",[]".toList.contains c)

/-- Reads the bytes of the rest of a tag, in which a byte may be written as two hexadecimal digits. -/
def tagBytes (verbatim : Bool) : (done : List UInt8) → Place → List Char → Option (List UInt8 × Cursor)
  | done, p, '%' :: a :: b :: rest =>
    match Text.digitValue? a, Text.digitValue? b with
    | some x, some y => tagBytes verbatim (UInt8.ofNat (x * 16 + y) :: done) (['%', a, b].foldl Place.ahead p) rest
    | _, _ => none
  | done, p, c :: rest =>
    if c == '%' then none
    else if isTagChar verbatim c then tagBytes verbatim (UInt8.ofNat c.toNat :: done) (p.ahead c) rest
    else some (done.reverse, ⟨c :: rest, p⟩)
  | done, p, [] => some (done.reverse, ⟨[], p⟩)

/-- Reads the rest of a tag after what is already known of it. -/
def tagRest (verbatim : Bool) (known : List Char) (c : Cursor) : Option (String × Cursor) := do
  let (bytes, c) ← tagBytes verbatim [] c.place c.rest
  let text ← String.fromUTF8? (ByteArray.mk bytes.toArray)
  return (String.ofList known ++ text, c)

/-- Reads a handle with its exclamation marks. The second mark may be missing. -/
def tagHandle (c : Cursor) : Option (List Char × Bool × Cursor) :=
  match c.rest with
  | '!' :: _ =>
    let (chars, c) := name c.next
    if c.rest.head? = some '!' then some ('!' :: chars ++ ['!'], true, c.next) else some ('!' :: chars, false, c)
  | _ => none

/-- Reads a tag between angle brackets, from its exclamation mark on. -/
def verbatimTag (c : Cursor) : Option (ShortTag × Cursor) := do
  let (suffix, after) ← tagRest true [] (c.pass 2)
  if suffix.isEmpty || after.rest.head? ≠ some '>' then none
  return (⟨"", suffix⟩, after.next)

/-- Reads a tag that may have a handle. A single exclamation mark is a tag by itself. -/
def handledTag (c : Cursor) : Option (ShortTag × Cursor) := do
  let (handle, complete, after) ← tagHandle c
  if complete then
    let (suffix, after) ← tagRest false [] after
    if suffix.isEmpty then none
    return (⟨String.ofList handle, suffix⟩, after)
  else
    let (suffix, after) ← tagRest false (handle.drop 1) after
    return (if suffix.isEmpty then ⟨"", "!"⟩ else ⟨"!", suffix⟩, after)

/-- Reads a tag from its exclamation mark on. In flow style a comma may follow it. -/
def shortTag (flow : Bool) (c : Cursor) : Option (ShortTag × Cursor) := do
  let (tag, after) ← if c.rest.tail.head? = some '<' then verbatimTag c else handledTag c
  if endsWord after.rest || (flow && after.rest.head? = some ',') then return (tag, after) else none

/-- What stands before a document. -/
inductive Directive where
  | version (major minor : Nat)
  /-- A handle and what it stands for. -/
  | tag (handle front : String)
  deriving DecidableEq, Repr

/-- Reads a number of at most nine digits. -/
def shortNumber (c : Cursor) : Option (Nat × Cursor) :=
  let digits := c.rest.takeWhile Text.isDigit
  if digits.isEmpty || 9 < digits.length then none else some (Text.decimal digits, c.pass digits.length)

/-- Reads the value of a version. -/
def versionDirective (c : Cursor) : Option (Directive × Cursor) := do
  let (major, c) ← shortNumber (c.passWhile isBlank)
  if c.rest.head? ≠ some '.' then none
  let (minor, c) ← shortNumber c.next
  return (.version major minor, c)

/-- Reads a handle and what it stands for. -/
def tagDirective (c : Cursor) : Option (Directive × Cursor) := do
  let (handle, complete, c) ← tagHandle (c.passWhile isBlank)
  if !complete && handle ≠ ['!'] then none
  if !(c.rest.head?.any isBlank) then none
  let (front, c) ← tagRest true [] (c.passWhile isBlank)
  if front.isEmpty || !endsWord c.rest then none
  return (.tag (String.ofList handle) front, c)

/-- Reads a directive after its mark, and the line it stands on. -/
def directive (c : Cursor) : Option (Directive × Cursor) := do
  let (chars, c) := name c
  if !endsWord c.rest then none
  let (d, c) ← if chars = "YAML".toList then versionDirective c
    else if chars = "TAG".toList then tagDirective c
    else none
  return (d, ← c.endLine?)

end CodelCurve.Yaml
