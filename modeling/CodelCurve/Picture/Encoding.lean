import CodelCurve.Picture.Drawing

/-! The bytes of drawings. Still pictures are written with 24 bits to a pixel and without compression that would
depend on what they show; animations have a palette, an endless loop and pictures of plain codes. -/

namespace CodelCurve

namespace Encoding

/-- The last bytes of a number, the most significant first. -/
def big (width n : Nat) : List UInt8 :=
  (List.range width).reverse.map fun k => UInt8.ofNat (n / Nat.pow 256 k)

/-- The last bytes of a number, the least significant first. -/
def little (width n : Nat) : List UInt8 := (List.range width).map fun k => UInt8.ofNat (n / Nat.pow 256 k)

def append (data : ByteArray) (bytes : List UInt8) : ByteArray := bytes.foldl ByteArray.push data

def rgb (p : Pixel) : List UInt8 := [p.red, p.green, p.blue]

def bgr (p : Pixel) : List UInt8 := [p.blue, p.green, p.red]

/-- A pixmap: a head in text and then the pixels. -/
def ppm (p : Picture) : ByteArray :=
  p.rows.foldl (fun data row => append data (row.flatMap rgb)) s!"P6\n{p.width} {p.height}\n255\n".toUTF8

/-- A bitmap: rows from the bottom up, each filled to a multiple of four bytes. -/
def bmp (p : Picture) : ByteArray :=
  let padding := List.replicate ((4 - p.width * 3 % 4) % 4) (0 : UInt8)
  let size := (p.width * 3 + padding.length) * p.height
  let head := [0x42, 0x4D] ++ little 4 (54 + size) ++ little 4 0 ++ little 4 54 ++ little 4 40 ++ little 4 p.width
    ++ little 4 p.height ++ little 2 1 ++ little 2 24 ++ little 4 0 ++ little 4 size ++ little 4 0 ++ little 4 0
    ++ little 4 0 ++ little 4 0
  p.rows.reverse.foldl (fun data row => append data (row.flatMap bgr ++ padding)) (append .empty head)

/-- One step of the cyclic redundancy check for each bit of a byte. -/
def crcByte (crc : UInt32) (b : UInt8) : UInt32 :=
  (List.range 8).foldl (fun c _ => if c &&& 1 = 1 then (c >>> 1) ^^^ 0xEDB88320 else c >>> 1) (crc ^^^ b.toUInt32)

def crc (data : ByteArray) : Nat :=
  let sum : UInt32 := data.foldl crcByte 0xFFFFFFFF
  (sum ^^^ 0xFFFFFFFF).toNat

/-- The two sums that check the bytes of a compressed stream. -/
def adler (data : ByteArray) : Nat :=
  let (a, b) := data.foldl (fun (a, b) byte =>
    let a := (a + byte.toNat) % 65521
    (a, (b + a) % 65521)) (1, 0)
  b * 65536 + a

/-- A chunk of a portable network graphic. -/
def chunk (kind : String) (data : ByteArray) : ByteArray :=
  let body := kind.toUTF8 ++ data
  append (append .empty (big 4 data.size) ++ body) (big 4 (crc body))

/-- The greatest number of bytes in a stored block. -/
def blockSize : Nat := 65535

/-- A compressed stream whose blocks are stored as they are. -/
def stored (data : ByteArray) : ByteArray :=
  let count := max 1 ((data.size + blockSize - 1) / blockSize)
  let blocks := (List.range count).foldl (fun out k =>
    let block := data.extract (k * blockSize) ((k + 1) * blockSize)
    let final : UInt8 := if k + 1 = count then 1 else 0
    append out (final :: little 2 block.size ++ little 2 (65535 - block.size)) ++ block) (append .empty [0x78, 0x01])
  append blocks (big 4 (adler data))

/-- A portable network graphic. -/
def png (p : Picture) : ByteArray :=
  let rows := p.rows.foldl (fun data row => append data (0 :: row.flatMap rgb)) ByteArray.empty
  let head := append .empty (big 4 p.width ++ big 4 p.height ++ [8, 2, 0, 0, 0])
  append .empty [0x89, 0x50, 0x4E, 0x47, 0x0D, 0x0A, 0x1A, 0x0A] ++ chunk "IHDR" head ++ chunk "IDAT" (stored rows)
    ++ chunk "IEND" .empty

/-- The colours that pictures of codels hold, filled up to 32. -/
def palette : List Pixel :=
  let colors := Pixel.white :: .black :: Color.all.map Color.pixel
  colors ++ List.replicate (32 - colors.length) .black

/-- The place of a colour in the palette. -/
def paletteIndex (p : Pixel) : Nat := palette.idxOf p

/-- Codes of six bits packed into bytes, from the lowest bit up. The first arguments are the bits left over and
their number. -/
def packCodes (data : ByteArray) : Nat → Nat → List Nat → ByteArray
  | pending, bits, [] => if bits = 0 then data else data.push (UInt8.ofNat pending)
  | pending, bits, code :: rest =>
    let pending := pending + code * Nat.pow 2 bits
    let bits := bits + 6
    if bits < 8 then packCodes data pending bits rest
    else packCodes (data.push (UInt8.ofNat (pending % 256))) (pending / 256) (bits - 8) rest

/-- The codes of pixels. The table of codes is cleared so often that codes keep their length; the first argument
counts the codes until then. -/
def gifCodes : Nat → List Nat → List Nat
  | _, [] => [33]
  | 0, code :: rest => 32 :: code :: gifCodes 27 rest
  | n + 1, code :: rest => code :: gifCodes n rest

/-- Bytes in blocks of up to 255, each after its length. -/
def subBlocks (data : ByteArray) : ByteArray :=
  let count := (data.size + 254) / 255
  let blocks := (List.range count).foldl (fun out k =>
    let block := data.extract (k * 255) ((k + 1) * 255)
    out.push (UInt8.ofNat block.size) ++ block) ByteArray.empty
  blocks.push 0

/-- A picture of an animation, shown for a number of hundredths of a second. -/
def gifFrame (delay : Nat) (p : Picture) : ByteArray :=
  let head := [0x21, 0xF9, 4, 0] ++ little 2 delay ++ [0, 0] ++ 0x2C :: little 2 0 ++ little 2 0 ++ little 2 p.width
    ++ little 2 p.height ++ [0, 5]
  let codes := gifCodes 0 (p.rows.flatMap fun row => row.map paletteIndex)
  append .empty head ++ subBlocks (packCodes .empty 0 0 codes)

/-- An animation that is repeated without end. -/
def gif (delay : Nat) (frames : List Picture) : ByteArray :=
  let width := (frames.map Picture.width).foldl max 0
  let height := (frames.map Picture.height).foldl max 0
  let head := append "GIF89a".toUTF8 (little 2 width ++ little 2 height ++ [0xF4, 0, 0] ++ palette.flatMap rgb
    ++ [0x21, 0xFF, 11]) ++ "NETSCAPE2.0".toUTF8
  let frames := frames.foldl (fun data p => data ++ gifFrame (delay / 10) p) (append head [3, 1, 0, 0, 0])
  frames.push 0x3B

end Encoding

namespace Drawing

/-- The bytes of a drawing in its format. -/
def encode : Drawing → ByteArray
  | still .png p => Encoding.png p
  | still .bmp p => Encoding.bmp p
  | still .ppm p => Encoding.ppm p
  | animation delay frames => Encoding.gif delay frames

end Drawing

end CodelCurve
