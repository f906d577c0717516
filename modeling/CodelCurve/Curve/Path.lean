/-! Paths of a turtle that fill the plane. A path is written in three characters: `F` goes one cell ahead, and
`+` and `-` turn clockwise and anticlockwise and then go one cell ahead. Curves are built by replacing each of
two symbols by a word in both of them, as often as wanted; stretching then makes room on the straight runs. -/

namespace CodelCurve.Curve

/-- A path, or any other text. -/
abbrev Path := List Char

/-- The word that a curve grows from. -/
def seed : Path := ['X']

/-- What a character is rewritten to. Each of the two symbols becomes a word in both, of which one is the reflection of
the other, and all else stays. -/
def rule : Char → Path
  | 'X' => "XFYFX+F+YFXFY-F-XFYFX".toList
  | 'Y' => "YFXFY-F-XFYFX+F+YFXFY".toList
  | other => [other]

def rewrite (word : Path) : Path := word.flatMap rule

/-- A word rewritten a number of times. -/
def grow : Nat → Path → Path
  | 0, word => word
  | n + 1, word => grow n (rewrite word)

/-- A word without the two symbols. -/
def steps (word : Path) : Path := word.filter fun c => c != 'X' && c != 'Y'

/-- The length that a maximal straight run is stretched to. A single step is left as it is. -/
def stretchedLength (run : Nat) : Nat := if run ≤ 1 then run else 5 * run + 2

/-- Stretches the straight runs of a path, given the length of the run that leads up to it. -/
def stretchFrom : Nat → Path → Path
  | run, [] => List.replicate (stretchedLength run) 'F'
  | run, c :: rest =>
    if c = 'F' then stretchFrom (run + 1) rest
    else List.replicate (stretchedLength run) 'F' ++ c :: stretchFrom 0 rest

/-- Stretches each maximal run of at least two steps ahead. -/
def stretch (path : Path) : Path := stretchFrom 0 path

/-- The stretched curve of an order. The curve of order zero is empty. -/
def generate (order : Nat) : Path := stretch (steps (grow order seed))

end CodelCurve.Curve
