import CodelCurve.Data.Datum
import CodelCurve.Table.Basic
import CodelCurve.Text.FileName

/-! Tables as values of a data format, and the files that hold them. A formula is a map of one entry: its kind and
then its parts by name. How values become bytes, and how formulas and tables are found in values again, is up to a
library, which has two formats: the packed one, and JSON for files of that extension. -/

namespace CodelCurve

namespace Operator

def title : Operator → String
  | add => "Add"
  | subtract => "Subtract"
  | multiply => "Multiply"
  | divide => "Divide"

end Operator

namespace Formula

/-- A formula as a value of a data format. -/
def toDatum : Formula → Datum
  | leaf n => .map [(.text "Leaf", .ofInt n)]
  | binary operator left right => .map [(.text "Binary", .map [
      (.text "operator", .text operator.title), (.text "left", left.toDatum), (.text "right", right.toDatum)])]
  | power base exponent => .map [(.text "Power", .map [
      (.text "base", base.toDatum), (.text "exponent", .nat exponent)])]

end Formula

/-- A data format as a library has it. -/
structure Format where
  /-- The bytes of a value, or why there are none. -/
  write : Datum → Except String (List UInt8)
  /-- The value that bytes hold. -/
  parse : List UInt8 → Option Datum
  /-- How many values may be nested in each other when a table is read. -/
  limit : Nat
  /-- The formula that a value is, when no more than a number of values may be nested in it. -/
  formula? : Nat → Datum → Option Formula
  /-- The table that a value is. -/
  table? : Datum → Option Table

/-- The table that bytes hold. -/
def Format.read (f : Format) (bytes : List UInt8) : Option Table := (f.parse bytes).bind f.table?

/-- The formats of table files. -/
structure Library where
  packed : Format
  json : Format

namespace Table

/-- A table as a value of a data format. -/
def toDatum (t : Table) : Datum := .map (t.entries.map fun e => (.ofInt e.1, e.2.toDatum))

/-- A file with this name holds a table as JSON. -/
def isJsonName (name : String) : Bool := FileName.hasExtension "json" name

variable (lib : Library)

/-- The packed bytes of a table. -/
def toBytes (t : Table) : Except TableError (List UInt8) := (lib.packed.write t.toDatum).mapError .encode

/-- The table at the front of packed bytes. -/
def ofBytes (bytes : List UInt8) : Except TableError Table :=
  match lib.packed.read bytes with
  | some t => .ok t
  | none => .error (.decode "these bytes are no table")

/-- The bytes of the JSON text of a table. -/
def toJson (t : Table) : Except TableError (List UInt8) := (lib.json.write t.toDatum).mapError .json

/-- The table that the bytes of a JSON text are. -/
def ofJson (bytes : List UInt8) : Except TableError Table :=
  match lib.json.read bytes with
  | some t => .ok t
  | none => .error (.json "this text is no table")

/-- The contents of a file of a name that a table is saved to. -/
def toFile (name : String) (t : Table) : Except TableError ByteArray := do
  let bytes ← if isJsonName name then t.toJson lib else t.toBytes lib
  return ByteArray.mk bytes.toArray

/-- The table in a file of a name, before its entries are checked. -/
def ofFile (name : String) (contents : ByteArray) : Except TableError Table :=
  if isJsonName name then ofJson lib contents.toList else ofBytes lib contents.toList

/-- The checked table in a file of a name. -/
def load (name : String) (contents : ByteArray) : Except TableError Table := do
  let t ← ofFile lib name contents
  t.validated

end Table

end CodelCurve
