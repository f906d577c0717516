import CodelCurve.Curve.Path
import CodelCurve.Machine.Instruction
import CodelCurve.Text.Blank

/-! The segments of a path: the first cell, the turns that a U-turn instruction can follow, and the straight
slots between them, which hold instructions. -/

namespace CodelCurve.Layout

/-- A segment of a path. -/
inductive Token where
  /-- The first cell. -/
  | start
  | turn (turn : Turn)
  /-- A straight run of cells that holds instructions. -/
  | slot (capacity : Int)
  deriving DecidableEq, Repr

/-- Why instructions cannot be laid out along a path. The texts are the path and the form in which it was seen
when the layout failed. -/
inductive LayoutError where
  | unresolvedTurns (path seen : String)
  | singleForward (path seen : String)
  | notEnoughSpace (remaining : Nat) (path seen : String)
  /-- No curve up to an order has room; the last failure is kept. -/
  | exhausted (greatest : Nat) (last : LayoutError)
  deriving DecidableEq, Repr

namespace LayoutError

/-- The two lines that show the path. -/
def paths (path seen : String) : String := s!"\n  Original path: {path}\n  Transformed path: {seen}"

def message : LayoutError → String
  | unresolvedTurns path seen =>
    "Failed to replace all U-turns in path; put in more iterations or stretch it" ++ paths path seen
  | singleForward path seen =>
    "Generated single forwards in path; put in more iterations or stretch it" ++ paths path seen
  | notEnoughSpace remaining path seen =>
    s!"Not enough space in path; {remaining} remaining operations" ++ paths path seen
  | exhausted greatest last => s!"No curve up to {greatest} iterations fits the program: {last.message}"

/-- Names the curve that the segments were read from, where space was short. -/
def onPath (path : String) : LayoutError → LayoutError
  | notEnoughSpace remaining _ seen => notEnoughSpace remaining path seen
  | other => other

end LayoutError

namespace Token

def turn? : Token → Option Turn
  | turn t => some t
  | _ => none

def text : Token → String
  | start => "I"
  | turn .clockwise => "C"
  | turn .anticlockwise => "A"
  | slot capacity => toString capacity

/-- Segments as they are shown in failures. -/
def texts (tokens : List Token) : String := String.intercalate " " (tokens.map text)

/-- The cells a clockwise turn is made of: three of set-up and the corner. -/
def clockwiseCells : List Char := "FFF+F+".toList

/-- The cells an anticlockwise turn is made of: five of set-up and the corner. -/
def anticlockwiseCells : List Char := "FFFFF-F-".toList

/-- A path without its first cell, which has to be a single byte of text. -/
def afterFirst (path : Curve.Path) : Curve.Path :=
  match path with
  | c :: rest => if c.utf8Size = 1 then rest else []
  | [] => []

/-- A path with its first cell and its turns set apart as words. -/
def markTurns (path : Curve.Path) : List Char :=
  Text.replace anticlockwiseCells " A ".toList (Text.replace clockwiseCells " C ".toList path)

/-- The segment of a word. A single step ahead is none, for nothing can be laid out in it. -/
def ofWord? (word : List Char) : Option Token :=
  if word = ['I'] then some start
  else if word = ['C'] then some (turn .clockwise)
  else if word = ['A'] then some (turn .anticlockwise)
  else if Text.byteLength word = 1 then none
  else some (slot (Text.byteLength word))

/-- The segments of a path: its first cell, and then its turns and slots in order. -/
def tokenize (path : Curve.Path) : Except LayoutError (List Token) :=
  let marked := 'I' :: ' ' :: afterFirst path
  let seen := markTurns marked
  let trimmed := String.ofList (Text.trim seen)
  if seen.any fun c => c = '+' || c = '-' then .error (.unresolvedTurns (String.ofList marked) trimmed)
  else
    match (Text.words seen).mapM ofWord? with
    | some tokens => .ok tokens
    | none => .error (.singleForward (String.ofList marked) trimmed)

end Token

end CodelCurve.Layout
