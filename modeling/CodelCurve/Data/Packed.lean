import CodelCurve.Data.Datum

/-! The packed form of values: a leading byte says of what kind a value is and, when there is room, how long it
is or which number; wider forms follow with as many bytes as they need, the most significant first. Writing
takes the shortest form, and reading takes any. -/

namespace CodelCurve.Packed

/-- The last bytes of a number, the most significant first. -/
def bigEndian : Nat → Nat → List UInt8
  | 0, _ => []
  | width + 1, n => UInt8.ofNat (n / Nat.pow 256 width) :: bigEndian width n

/-- The number that bytes stand for. -/
def ofBigEndian (bytes : List UInt8) : Nat := bytes.foldl (fun n b => n * 256 + b.toNat) 0

/-- A leading byte and a number of a width. -/
def wide (lead : UInt8) (width n : Nat) : List UInt8 := lead :: bigEndian width n

/-- How a number stands at the head of a value: a small one in the leading byte itself, and any other behind a leading
byte in the width that goes with it. -/
structure Head where
  short : UInt8
  room : Nat
  wides : List (UInt8 × Nat)

namespace Head

/-- The number that a value is, without a sign. -/
def natural : Head := ⟨0x00, 0x80, [(0xcc, 1), (0xcd, 2), (0xce, 4), (0xcf, 8)]⟩

/-- The number of the bytes of a text. -/
def text : Head := ⟨0xa0, 0x20, [(0xd9, 1), (0xda, 2), (0xdb, 4)]⟩

/-- The number of raw bytes, which never stands in the leading byte. -/
def bytes : Head := ⟨0xc4, 0, [(0xc4, 1), (0xc5, 2), (0xc6, 4)]⟩

def list : Head := ⟨0x90, 0x10, [(0xdc, 2), (0xdd, 4)]⟩

def map : Head := ⟨0x80, 0x10, [(0xde, 2), (0xdf, 4)]⟩

/-- A number in the first width that is enough for it, or else in the last. -/
def widened : List (UInt8 × Nat) → Nat → List UInt8
  | [], _ => []
  | [(lead, width)], n => wide lead width n
  | (lead, width) :: other :: rest, n =>
    if n < Nat.pow 256 width then wide lead width n else widened (other :: rest) n

/-- The shortest head of a number. -/
def write (h : Head) (n : Nat) : List UInt8 :=
  if n < h.room then [h.short + UInt8.ofNat n] else widened h.wides n

end Head

/-- A negative number, as what it exceeds the least number of its width by. -/
def negative (n : Int) : List UInt8 :=
  if -0x20 ≤ n then [UInt8.ofNat (n + 0x100).toNat]
  else if -0x80 ≤ n then wide 0xd0 1 (n + 0x100).toNat
  else if -0x8000 ≤ n then wide 0xd1 2 (n + 0x10000).toNat
  else if -0x80000000 ≤ n then wide 0xd2 4 (n + 0x100000000).toNat
  else wide 0xd3 8 (n + 0x10000000000000000).toNat

mutual

/-- The bytes of a value. -/
def encode : Datum → List UInt8
  | .null => [0xc0]
  | .bool false => [0xc2]
  | .bool true => [0xc3]
  | .nat n => Head.natural.write n
  | .int n => if n < 0 then negative n else Head.natural.write n.toNat
  | .real => 0xcb :: List.replicate 8 0
  | .special => [0xd4, 0, 0]
  | .text s =>
    let bytes := s.toUTF8.toList
    Head.text.write bytes.length ++ bytes
  | .bytes b => Head.bytes.write b.length ++ b
  | .list items => Head.list.write items.length ++ encodeItems items
  | .map pairs => Head.map.write pairs.length ++ encodePairs pairs

def encodeItems : List Datum → List UInt8
  | [] => []
  | item :: rest => encode item ++ encodeItems rest

def encodePairs : List (Datum × Datum) → List UInt8
  | [] => []
  | (k, v) :: rest => encode k ++ encode v ++ encodePairs rest

end

/-- A number of bytes from the front. -/
def take : Nat → List UInt8 → Option (List UInt8 × List UInt8)
  | 0, bytes => some ([], bytes)
  | _ + 1, [] => none
  | n + 1, b :: rest => (take n rest).map fun (taken, rest) => (b :: taken, rest)

/-- A number of a width. -/
def takeNumber (width : Nat) (bytes : List UInt8) : Option (Nat × List UInt8) :=
  (take width bytes).map fun (taken, rest) => (ofBigEndian taken, rest)

/-- A number of a width whose upper half is negative. -/
def takeSigned (width : Nat) (bytes : List UInt8) : Option (Datum × List UInt8) :=
  (takeNumber width bytes).map fun (n, rest) =>
    (.int (if n < Nat.pow 256 width / 2 then (n : Int) else (n : Int) - Nat.pow 256 width), rest)

def takeNatural (width : Nat) (bytes : List UInt8) : Option (Datum × List UInt8) :=
  (takeNumber width bytes).map fun (n, rest) => (.nat n, rest)

/-- A text of a number of bytes. Bytes that are not well-formed text are kept as bytes. -/
def takeText (n : Nat) (bytes : List UInt8) : Option (Datum × List UInt8) :=
  (take n bytes).map fun (taken, rest) => (.ofBytes taken, rest)

def takeBytes (n : Nat) (bytes : List UInt8) : Option (Datum × List UInt8) :=
  (take n bytes).map fun (taken, rest) => (.bytes taken, rest)

/-- A number that is no integer, whose bytes do not matter. -/
def takeReal (n : Nat) (bytes : List UInt8) : Option (Datum × List UInt8) :=
  (take n bytes).map fun (_, rest) => (.real, rest)

/-- A special value: its kind in a byte, and then a number of bytes. -/
def takeSpecial (n : Nat) (bytes : List UInt8) : Option (Datum × List UInt8) :=
  (take (n + 1) bytes).map fun (_, rest) => (.special, rest)

/-- Reads a number of values, given how one is read. -/
def items (read : List UInt8 → Option (Datum × List UInt8)) :
    Nat → List UInt8 → Option (List Datum × List UInt8)
  | 0, bytes => some ([], bytes)
  | n + 1, bytes =>
    match read bytes with
    | none => none
    | some (v, rest) => (items read n rest).map fun (vs, rest) => (v :: vs, rest)

/-- Reads a number of pairs of values, given how a value is read. -/
def pairs (read : List UInt8 → Option (Datum × List UInt8)) :
    Nat → List UInt8 → Option (List (Datum × Datum) × List UInt8)
  | 0, bytes => some ([], bytes)
  | n + 1, bytes =>
    match read bytes with
    | none => none
    | some (k, rest) =>
      match read rest with
      | none => none
      | some (v, rest) => (pairs read n rest).map fun (ps, rest) => ((k, v) :: ps, rest)

def takeList (read : List UInt8 → Option (Datum × List UInt8)) (n : Nat) (bytes : List UInt8) :
    Option (Datum × List UInt8) :=
  (items read n bytes).map fun (vs, rest) => (.list vs, rest)

def takeMap (read : List UInt8 → Option (Datum × List UInt8)) (n : Nat) (bytes : List UInt8) :
    Option (Datum × List UInt8) :=
  (pairs read n bytes).map fun (ps, rest) => (.map ps, rest)

/-- A length of a width, and then what it is the length of. -/
def sized (width : Nat) (read : Nat → List UInt8 → Option (Datum × List UInt8)) (bytes : List UInt8) :
    Option (Datum × List UInt8) :=
  match takeNumber width bytes with
  | none => none
  | some (n, rest) => read n rest

/-- Reads the rest of a value after its leading byte, given how a value inside it is read. -/
def body (read : List UInt8 → Option (Datum × List UInt8)) (lead : Nat) (rest : List UInt8) :
    Option (Datum × List UInt8) :=
  if lead < 0x80 then some (.nat lead, rest)
  else if lead < 0x90 then takeMap read (lead - 0x80) rest
  else if lead < 0xa0 then takeList read (lead - 0x90) rest
  else if lead < 0xc0 then takeText (lead - 0xa0) rest
  else if 0xe0 ≤ lead then some (.int ((lead : Int) - 0x100), rest)
  else
    match lead with
    | 0xc0 => some (.null, rest)
    | 0xc2 => some (.bool false, rest)
    | 0xc3 => some (.bool true, rest)
    | 0xc4 => sized 1 takeBytes rest
    | 0xc5 => sized 2 takeBytes rest
    | 0xc6 => sized 4 takeBytes rest
    | 0xc7 => sized 1 takeSpecial rest
    | 0xc8 => sized 2 takeSpecial rest
    | 0xc9 => sized 4 takeSpecial rest
    | 0xca => takeReal 4 rest
    | 0xcb => takeReal 8 rest
    | 0xcc => takeNatural 1 rest
    | 0xcd => takeNatural 2 rest
    | 0xce => takeNatural 4 rest
    | 0xcf => takeNatural 8 rest
    | 0xd0 => takeSigned 1 rest
    | 0xd1 => takeSigned 2 rest
    | 0xd2 => takeSigned 4 rest
    | 0xd3 => takeSigned 8 rest
    | 0xd4 => takeSpecial 1 rest
    | 0xd5 => takeSpecial 2 rest
    | 0xd6 => takeSpecial 4 rest
    | 0xd7 => takeSpecial 8 rest
    | 0xd8 => takeSpecial 16 rest
    | 0xd9 => sized 1 takeText rest
    | 0xda => sized 2 takeText rest
    | 0xdb => sized 4 takeText rest
    | 0xdc => sized 2 (takeList read) rest
    | 0xdd => sized 4 (takeList read) rest
    | 0xde => sized 2 (takeMap read) rest
    | 0xdf => sized 4 (takeMap read) rest
    | _ => none

/-- Reads a value. The number bounds how deep values are nested. -/
def value : Nat → List UInt8 → Option (Datum × List UInt8)
  | 0, _ => none
  | _ + 1, [] => none
  | depth + 1, lead :: rest => body (value depth) lead.toNat rest

/-- The value at the front of bytes; what follows it does not matter. -/
def decode (bytes : List UInt8) : Option Datum := (value bytes.length bytes).map (·.1)

end CodelCurve.Packed
