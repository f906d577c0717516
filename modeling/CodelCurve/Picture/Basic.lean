import CodelCurve.Machine.CodelMap

/-! Pictures of codels. Each codel is painted as a square of pixels of one colour, the rest is white. East of the last
codel stands a trap: three codels in the colour that a push leads to, and black ones next to them. The trap never covers
a codel of the program. -/

namespace CodelCurve

/-- A rectangle of pixels. -/
structure Picture where
  width : Nat
  height : Nat
  /-- The pixels, row by row. -/
  pixels : Array Pixel
  size_pixels : pixels.size = width * height
  deriving DecidableEq, Repr

/-- Why codels cannot be drawn. -/
inductive PictureError where
  | emptyProgram
  | colorName (name : String)
  | codelSize (size : Nat)
  | image (detail : String)
  | io (detail : String)
  deriving DecidableEq, Repr

namespace PictureError

def message : PictureError → String
  | emptyProgram => "Can't render program; run it first"
  | colorName name => s!"Invalid color name: \"{name}\""
  | codelSize size => s!"Invalid codel size {size}; must be at least 1"
  | image detail => s!"Image error: {detail}"
  | io detail => s!"IO error: {detail}"

end PictureError

namespace Color

/-- The colour of a name, which has to be one. -/
def ofName (name : String) : Except PictureError Color :=
  match ofName? name with
  | some c => .ok c
  | none => .error (.colorName name)

end Color

namespace Picture

/-- The picture with all pixels the same. -/
def filled (width height : Nat) (pixel : Pixel) : Picture :=
  ⟨width, height, .replicate (width * height) pixel, Array.size_replicate⟩

/-- The pixel in a column and a row. -/
def pixel? (p : Picture) (u v : Nat) : Option Pixel :=
  if u < p.width then p.pixels[v * p.width + u]? else none

/-- The rows of pixels from the top down. -/
def rows (p : Picture) : List (List Pixel) :=
  (List.range p.height).map fun v => (List.range p.width).filterMap fun u => p.pixel? u v

/-- Puts a pixel in a column and a row. Beyond the last column or row nothing is changed. -/
def put : Picture → Nat → Nat → Pixel → Picture
  | ⟨width, height, pixels, hsize⟩, u, v, pixel =>
    if u < width then
      ⟨width, height, pixels.setIfInBounds (v * width + u) pixel, Array.size_setIfInBounds.trans hsize⟩
    else ⟨width, height, pixels, hsize⟩

/-- Puts a number of pixels in a row, from a column on. -/
def putRow (left v : Nat) (pixel : Pixel) (count : Nat) (p : Picture) : Picture :=
  count.fold (fun dx _ p => p.put (left + dx) v pixel) p

/-- Puts pixels in a number of rows, as many in each, from a column and a row on. -/
def putRows (left top : Nat) (pixel : Pixel) (columns rows : Nat) (p : Picture) : Picture :=
  rows.fold (fun dy _ p => p.putRow left (top + dy) pixel columns) p

/-- The squares of the trap around the last codel, given the colour that a push leads to. -/
def trap (last : Position) (push : Pixel) : List (Position × Pixel) := [
  (⟨last.x + 1, last.y⟩, push),
  (⟨last.x + 1, last.y - 1⟩, push),
  (⟨last.x + 1, last.y + 1⟩, push),
  (⟨last.x, last.y - 1⟩, .black),
  (⟨last.x, last.y + 1⟩, .black),
  (⟨last.x + 1, last.y - 2⟩, .black)]

/-- The corner opposite to the first, with room for the trap. -/
def farCorner (high last : Position) : Position := ⟨max high.x (last.x + 1), max high.y (last.y + 1)⟩

/-- A position lies between two corners. -/
def Shows (low far p : Position) : Prop := low.x ≤ p.x ∧ low.y ≤ p.y ∧ p.x ≤ far.x ∧ p.y ≤ far.y

instance (low far p : Position) : Decidable (Shows low far p) := inferInstanceAs (Decidable (_ ∧ _))

end Picture

/-- The picture of the positions from one corner to another, a square for each, to be painted one after the other. -/
structure Canvas where
  image : Picture
  low : Position
  far : Position
  /-- The side of a square in pixels. -/
  codelSize : Nat

namespace Canvas

def blank (low far : Position) (codelSize : Nat) : Canvas :=
  ⟨.filled ((far.x - low.x + 1).toNat * codelSize) ((far.y - low.y + 1).toNat * codelSize) .white, low, far, codelSize⟩

/-- Paints the square of a position. Positions beyond the corners are left out. -/
def paint : Canvas → Position → Pixel → Canvas
  | ⟨image, low, far, codelSize⟩, p, pixel =>
    if Picture.Shows low far p then
      let left := (p.x - low.x).toNat * codelSize
      let top := (p.y - low.y).toNat * codelSize
      ⟨image.putRows left top pixel codelSize codelSize, low, far, codelSize⟩
    else ⟨image, low, far, codelSize⟩

/-- Paints squares in turn. -/
def paintAll (canvas : Canvas) (squares : List (Position × Pixel)) : Canvas :=
  squares.foldl (fun canvas s => canvas.paint s.1 s.2) canvas

end Canvas

namespace Picture

/-- Draws codels, the first of which has a given colour. The trap is painted where there are no codels. -/
def render (codels : CodelMap) (initial : Color) (codelSize : Nat) : Except PictureError Picture :=
  if codelSize = 0 then .error (.codelSize codelSize)
  else
    match codels.last?, codels.extent? with
    | some (last, shift), some (low, high) =>
      let program := codels.toList.map fun c => (c.1, (initial.shifted c.2).pixel)
      let traps := trap last (initial.shifted (shift + ⟨1, 0⟩)).pixel
      let canvas := ((Canvas.blank low (farCorner high last) codelSize).paintAll program).paintAll
        (traps.filter fun t => (codels.get? t.1).isNone)
      .ok canvas.image
    | _, _ => .error .emptyProgram

end Picture

/-- How codels are drawn. -/
structure Style where
  /-- The side of a codel in pixels. -/
  codelSize : Nat
  /-- The name of the colour of the first codel. -/
  initialColor : String
  deriving DecidableEq, Repr

namespace Style

def standard : Style := ⟨20, "red"⟩

def color (s : Style) : Except PictureError Color := Color.ofName s.initialColor

end Style

end CodelCurve
