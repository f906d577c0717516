import CodelCurve.Curve.Path
import CodelCurve.Machine.State

/-! The walk of a turtle along a path, which gives the path its cells in the plane. Main statements: a walk along
two paths in a row goes along the second from where the first ends, and it visits one cell more than the path has
steps. -/

namespace CodelCurve.Curve

/-- Where a turtle stands and where it faces. -/
structure Turtle where
  position : Position
  heading : Heading
  deriving DecidableEq, Repr

namespace Turtle

def start : Turtle := ⟨.origin, .east⟩

/-- The quarter-turns that a turtle makes before a step, clockwise when positive. -/
def quarterTurns (c : Char) : Int :=
  if c = '+' then 1 else if c = '-' then -1 else 0

/-- Turns as a character asks and goes one cell ahead. -/
def step (t : Turtle) (c : Char) : Turtle :=
  let heading := t.heading.rotated (quarterTurns c)
  ⟨t.position.stepped heading 1, heading⟩

/-- Where a path leads. -/
def follow (t : Turtle) (path : Path) : Turtle := path.foldl step t

/-- The cells on a path, with that of its start and that of its end. -/
def cells (t : Turtle) : Path → List Position
  | [] => [t.position]
  | c :: rest => t.position :: (t.step c).cells rest

theorem follow_append (t : Turtle) (p q : Path) : t.follow (p ++ q) = (t.follow p).follow q := by
  simp [follow]

theorem length_cells (t : Turtle) (path : Path) : (t.cells path).length = path.length + 1 := by
  induction path generalizing t with
  | nil => rfl
  | cons c rest ih => simp [cells, ih]

theorem cells_ne_nil (t : Turtle) (path : Path) : t.cells path ≠ [] := by
  cases path <;> simp [cells]

theorem cells_append (t : Turtle) (p q : Path) :
    t.cells (p ++ q) = (t.cells p).dropLast ++ (t.follow p).cells q := by
  induction p generalizing t with
  | nil => rfl
  | cons c rest ih => simp [cells, follow, ih, List.dropLast_cons_of_ne_nil, cells_ne_nil]

end Turtle

end CodelCurve.Curve
