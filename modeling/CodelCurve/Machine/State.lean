/-! The state of the machine between two codels: where it stands and heads, what it has stacked and printed,
and how large the block of codels behind it is. -/

namespace CodelCurve

/-- A codel coordinate. `x` grows eastwards and `y` southwards. -/
structure Position where
  x : Int
  y : Int
  deriving DecidableEq, Repr, Inhabited

/-- The direction pointer, in clockwise order. -/
inductive Heading where
  | east
  | south
  | west
  | north
  deriving DecidableEq, Repr, Inhabited

namespace Heading

/-- One quarter-turn clockwise. -/
def clockwise : Heading → Heading
  | east => south
  | south => west
  | west => north
  | north => east

/-- A number of quarter-turns, clockwise when positive. -/
def rotated (h : Heading) (quarterTurns : Int) : Heading :=
  Nat.repeat clockwise (quarterTurns % 4).toNat h

/-- The step one codel ahead. -/
def unit : Heading → Int × Int
  | east => (1, 0)
  | south => (0, 1)
  | west => (-1, 0)
  | north => (0, -1)

def name : Heading → String
  | east => "East"
  | south => "South"
  | west => "West"
  | north => "North"

def arrow : Heading → String
  | east => "🡺"
  | south => "🡻"
  | west => "🡸"
  | north => "🡹"

end Heading

namespace Position

def origin : Position := ⟨0, 0⟩

/-- The position a number of codels ahead along a heading. -/
def stepped (p : Position) (h : Heading) (steps : Int) : Position :=
  ⟨p.x + h.unit.1 * steps, p.y + h.unit.2 * steps⟩

def text (p : Position) : String := s!"({p.x}, {p.y})"

end Position

/-- The state of the machine between two codels. -/
structure State where
  /-- The values on the stack, the top first. -/
  stack : List Int
  /-- The size of the block of codels just left, which a push puts on the stack. -/
  block : Int
  /-- The place of the next codel. -/
  position : Position
  /-- The direction of the codel after it. -/
  heading : Heading
  /-- All that was printed so far. -/
  output : String
  deriving DecidableEq, Repr, Inhabited

namespace State

/-- The empty state every program starts from. -/
def start : State := ⟨[], 0, .origin, .east, ""⟩

/-- Moves a number of codels ahead. -/
def advance (s : State) (steps : Int) : State :=
  { s with position := s.position.stepped s.heading steps }

/-- Rotates the direction pointer by a number of quarter-turns, clockwise when positive. -/
def rotate (s : State) (quarterTurns : Int) : State :=
  { s with heading := s.heading.rotated quarterTurns }

/-- The stack from the bottom up, the block size, the position and the heading. -/
def text (s : State) : String :=
  let values := String.intercalate ", " (s.stack.reverse.map fun n => toString n)
  s!"[{values}] {s.block} {s.position.text} {s.heading.arrow}"

end State

end CodelCurve
