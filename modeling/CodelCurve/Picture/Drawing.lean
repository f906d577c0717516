import CodelCurve.Picture.Basic
import CodelCurve.Text.FileName

/-! Drawings: what is saved for a program, in the format that the name of the file asks for. -/

namespace CodelCurve

/-- The formats of pictures that stand still. -/
inductive StillFormat where
  | png
  | bmp
  | ppm
  deriving DecidableEq, Repr

namespace StillFormat

def all : List StillFormat := [png, bmp, ppm]

def extension : StillFormat → String
  | png => "png"
  | bmp => "bmp"
  | ppm => "ppm"

/-- The format that a name asks for. -/
def ofName? (name : String) : Option StillFormat := all.find? fun f => FileName.hasExtension f.extension name

end StillFormat

/-- A picture or a sequence of pictures in a format. -/
inductive Drawing where
  | still (format : StillFormat) (picture : Picture)
  /-- Pictures shown one after the other without end, each for a number of milliseconds. -/
  | animation (delay : Nat) (frames : List Picture)
  deriving DecidableEq, Repr

namespace Drawing

/-- A file of this name holds an animation. -/
def isAnimationName (name : String) : Bool := FileName.hasExtension "gif" name

/-- The first colours of the frames: the six hues at normal lightness. -/
def frameColors : List Color := (List.finRange 6).map fun hue => ⟨hue, ⟨1, by decide⟩⟩

/-- The time for which a frame is shown. -/
def frameDelay : Nat := 600

/-- The greatest width and height of a frame. -/
def greatestSide : Nat := 65535

/-- A picture can be a frame. -/
def canBeFrame (p : Picture) : Bool := p.width ≤ greatestSide && p.height ≤ greatestSide

/-- The animation over all hues. -/
def animate (codels : CodelMap) (codelSize : Nat) : Except PictureError Drawing := do
  let frames ← frameColors.mapM fun c => Picture.render codels c codelSize
  if frames.all canBeFrame then return .animation frameDelay frames
  else throw (.image "the frames are too large")

/-- The still picture for a file of a name. -/
def portray (codels : CodelMap) (name : String) (style : Style) : Except PictureError Drawing := do
  let picture ← Picture.render codels (← style.color) style.codelSize
  match StillFormat.ofName? name with
  | some format => return .still format picture
  | none => throw (.image "the name asks for no known format")

/-- The drawing for a file of a name. -/
def ofCodels (codels : CodelMap) (name : String) (style : Style) : Except PictureError Drawing :=
  if isAnimationName name then animate codels style.codelSize else portray codels name style

end Drawing

end CodelCurve
