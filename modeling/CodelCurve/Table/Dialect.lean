import CodelCurve.Data.Json
import CodelCurve.Data.Packed
import CodelCurve.Table.Format

/-! The library that is in use. Reading takes the parts of a formula in any order, passes over names that it does not
know, and takes a list of the parts in their order as well. -/

namespace CodelCurve

/-- The names of the operators, in the order of `all`. -/
def Operator.names : List String := ["Add", "Subtract", "Multiply", "Divide"]

namespace Formula

def kinds : List String := ["Leaf", "Binary", "Power"]

def binaryParts : List String := ["operator", "left", "right"]

def powerParts : List String := ["base", "exponent"]

end Formula

/-- What tells formats apart when values are read. -/
structure Dialect where
  /-- Parts may be named by their places and in raw bytes, and values that are passed over count as nested. -/
  compact : Bool
  /-- How many values may be nested in each other, the table among them. -/
  limit : Nat
  /-- As how many of them the map of a kind counts. -/
  head : Nat

namespace Dialect

/-- In packed form the map of a kind is a value together with what is in it. -/
def packed : Dialect := ⟨true, 1023, 0⟩

def json : Dialect := ⟨false, 127, 1⟩

/-- The place of a name among names. There is none when the value names nothing at all, and the place is missing
when the name is not among them. -/
def place? (d : Dialect) (names : List String) : Datum → Option (Option Nat)
  | .text s => some (names.findIdx? fun n => n = s)
  | .bytes b => if d.compact then some (names.findIdx? fun n => n.toUTF8.toList = b) else none
  | .nat n => some (if d.compact && n < names.length then some n else none)
  | .int _ => if d.compact then none else some none
  | _ => none

/-- The parts of a value in the order of their names, each of which has to be there once. The number bounds how deep
values that are passed over may be nested, where they count. -/
def parts? (d : Dialect) (room : Nat) (names : List String) : Datum → Option (List Datum)
  | .list items => if items.length = names.length then some items else none
  | .map pairs => do
    let placed ← pairs.mapM fun (k, v) => (d.place? names k).map fun p => (p, v)
    if d.compact && placed.any fun (p, v) => p.isNone && room < v.depth then none
    (List.range names.length).mapM fun i =>
      match placed.filter fun (p, _) => p = some i with
      | [(_, v)] => some v
      | _ => none
  | _ => none

/-- The operator that a value names, in a map of one entry or by itself. -/
def operator? (d : Dialect) (v : Datum) : Option Operator := do
  let name ← match v with
    | .map [(k, .null)] => some k
    | .map _ => none
    | other => some other
  let place ← (← d.place? Operator.names name)
  Operator.all[place]?

/-- An exponent, which has to fit 32 bits. -/
def exponent? (v : Datum) : Option Nat := do
  let n ← v.int?
  if 0 ≤ n ∧ n < 0x100000000 then some n.toNat else none

/-- The formula of the kind at a place that has parts, given how many values may be nested in them and how a formula
among them is read. -/
def ofParts (d : Dialect) (inner : Nat) (read : Datum → Option Formula) (v : Datum) : Option Nat → Option Formula
  | some 1 => do
    match ← d.parts? inner Formula.binaryParts v with
    | [operator, left, right] => return .binary (← d.operator? operator) (← read left) (← read right)
    | _ => none
  | some 2 => do
    match ← d.parts? inner Formula.powerParts v with
    | [base, exponent] => return .power (← read base) (← exponent? exponent)
    | _ => none
  | _ => none

/-- The formula that a value is, when no more than a number of values may be nested in it. -/
def formula? (d : Dialect) (room : Nat) : Datum → Option Formula
  | .map [(k, v)] => do
    if room < d.head then none
    match ← d.place? Formula.kinds k with
    | some 0 => return .leaf (← Word.check (← v.int?))
    | kind =>
      match _hroom : room - d.head with
      | 0 => none
      | inner + 1 => d.ofParts inner (d.formula? inner) v kind
  | _ => none
termination_by room
decreasing_by omega

/-- The entry of a table that a pair is. -/
def entry? (d : Dialect) (room : Nat) (pair : Datum × Datum) : Option (Int × Formula) := do
  return (← Word.check (← pair.1.int?), ← d.formula? room pair.2)

/-- The table that a value is. Of entries of one number the last counts. -/
def table? (d : Dialect) : Datum → Option Table
  | .map pairs => do
    if d.limit = 0 then none
    let entries ← pairs.mapM (d.entry? (d.limit - 1))
    return entries.foldl (fun t (key, f) => t.put key f) .empty
  | _ => none

/-- The format that a dialect is read in. -/
def format (d : Dialect) (write : Datum → Except String (List UInt8)) (parse : List UInt8 → Option Datum) : Format :=
  ⟨write, parse, d.limit, d.formula?, d.table?⟩

end Dialect

/-- The library that is in use. -/
def Library.standard : Library where
  packed := Dialect.packed.format (fun d => .ok (Packed.encode d)) Packed.decode
  json := Dialect.json.format (fun d => .ok (Json.text d).toUTF8.toList) Json.parse

end CodelCurve
