/-! Values as data formats write them: numbers, texts, lists and maps. -/

namespace CodelCurve

/-- A value of a data format. -/
inductive Datum where
  | null
  | bool (value : Bool)
  /-- A number that is written without a sign. -/
  | nat (n : Nat)
  /-- A number that is written with a sign. -/
  | int (n : Int)
  /-- A number that is not written as an integer. -/
  | real
  | text (value : String)
  | bytes (value : List UInt8)
  | list (items : List Datum)
  | map (pairs : List (Datum × Datum))
  /-- A value of a kind that only its format knows. -/
  | special
  deriving Inhabited

namespace Datum

/-- The number as it is written: with a sign when it is negative. -/
def ofInt (n : Int) : Datum := if n < 0 then int n else nat n.toNat

/-- The integer that a value is. -/
def int? : Datum → Option Int
  | nat n => some n
  | int n => some n
  | _ => none

/-- The text that bytes are, or the bytes themselves if they are no well-formed text. -/
def ofBytes (value : List UInt8) : Datum :=
  match String.fromUTF8? (ByteArray.mk value.toArray) with
  | some s => text s
  | none => bytes value

mutual

/-- How deep lists, maps and special values are nested. -/
def depth : Datum → Nat
  | list items => depthOfItems items + 1
  | map pairs => depthOfPairs pairs + 1
  | special => 1
  | _ => 0

def depthOfItems : List Datum → Nat
  | [] => 0
  | item :: rest => max item.depth (depthOfItems rest)

def depthOfPairs : List (Datum × Datum) → Nat
  | [] => 0
  | (k, v) :: rest => max (max k.depth v.depth) (depthOfPairs rest)

end

end Datum

end CodelCurve
