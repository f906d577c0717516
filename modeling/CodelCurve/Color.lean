import CodelCurve.Text.Blank

/-! The eighteen colours of codels, six hues at three levels of lightness, and the shifts between them that
carry the instructions of a program. -/

namespace CodelCurve

/-- A shift in lightness and hue. Shifts are not reduced, so that the total of many can be applied to any
colour; a total that does not fit 32 bits wraps around. -/
structure Shift where
  lightness : Int32
  hue : Int32
  deriving DecidableEq, Repr, Inhabited

namespace Shift

def zero : Shift := ⟨0, 0⟩

instance : Add Shift := ⟨fun s t => ⟨s.lightness + t.lightness, s.hue + t.hue⟩⟩

@[simp] theorem lightness_add (s t : Shift) : (s + t).lightness = s.lightness + t.lightness := rfl

@[simp] theorem hue_add (s t : Shift) : (s + t).hue = s.hue + t.hue := rfl

end Shift

/-- A colour of the palette. Lightness 0 is light, 1 is normal and 2 is dark; the hues run from red over
yellow, green, cyan and blue to magenta. -/
structure Color where
  hue : Fin 6
  lightness : Fin 3
  deriving DecidableEq, Repr

/-- The red, green and blue parts of a pixel. -/
structure Pixel where
  red : UInt8
  green : UInt8
  blue : UInt8
  deriving DecidableEq, Repr, Inhabited

namespace Pixel

def white : Pixel := ⟨255, 255, 255⟩

def black : Pixel := ⟨0, 0, 0⟩

end Pixel

namespace Color

/-- The colour with hue taken modulo six and lightness modulo three. -/
def wrap (hue lightness : Int32) : Color :=
  ⟨Fin.ofNat 6 (hue.toInt % 6).toNat, Fin.ofNat 3 (lightness.toInt % 3).toNat⟩

/-- The colour reached from a colour by a shift. -/
def shifted (c : Color) (s : Shift) : Color :=
  wrap (Int32.ofNat c.hue.val + s.hue) (Int32.ofNat c.lightness.val + s.lightness)

/-- The code of a hue at normal lightness. -/
def hueCode (hue : Fin 6) : List Char :=
  match hue with
  | 0 => "#FF0000".toList
  | 1 => "#FFFF00".toList
  | 2 => "#00FF00".toList
  | 3 => "#00FFFF".toList
  | 4 => "#0000FF".toList
  | 5 => "#FF00FF".toList

/-- The characters of the code `#RRGGBB`: light raises the parts that are absent, dark lowers those that are
present. -/
def codeChars (c : Color) : List Char :=
  match c.lightness with
  | 0 => Text.replace "00".toList "C0".toList (hueCode c.hue)
  | 1 => hueCode c.hue
  | 2 => Text.replace "FF".toList "C0".toList (hueCode c.hue)

def code (c : Color) : String := String.ofList c.codeChars

def hexDigit? (c : Char) : Option Nat :=
  if '0' ≤ c ∧ c ≤ '9' then some (c.toNat - '0'.toNat)
  else if 'A' ≤ c ∧ c ≤ 'F' then some (c.toNat - 'A'.toNat + 10)
  else if 'a' ≤ c ∧ c ≤ 'f' then some (c.toNat - 'a'.toNat + 10)
  else none

/-- The number that two hexadecimal digits at a place of a code stand for, or zero if there are none. -/
def channel (code : List Char) (place : Nat) : UInt8 :=
  match ((code.drop place).take 2).mapM hexDigit? with
  | some [high, low] => UInt8.ofNat (16 * high + low)
  | _ => 0

/-- The pixel of a colour, read off its code. -/
def pixel (c : Color) : Pixel := ⟨channel c.codeChars 1, channel c.codeChars 3, channel c.codeChars 5⟩

def hueName (hue : Fin 6) : String :=
  match hue with
  | 0 => "red"
  | 1 => "yellow"
  | 2 => "green"
  | 3 => "cyan"
  | 4 => "blue"
  | 5 => "magenta"

def lightnessName (lightness : Fin 3) : String :=
  match lightness with
  | 0 => "light"
  | 1 => ""
  | 2 => "dark"

def name (c : Color) : String := lightnessName c.lightness ++ hueName c.hue

/-- All eighteen colours. -/
def all : List Color :=
  (List.finRange 6).flatMap fun hue => (List.finRange 3).map fun lightness => ⟨hue, lightness⟩

/-- The colour of a name: `red`, `lightred`, `darkred` and so on. -/
def ofName? (text : String) : Option Color := all.find? fun c => c.name = text

end Color

end CodelCurve
