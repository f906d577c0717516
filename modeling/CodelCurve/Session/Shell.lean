import CodelCurve.Picture.Drawing

/-! What a session asks of its surroundings: files, standard input, standard output and a log. A desk is a set of
surroundings that holds its files in memory. -/

namespace CodelCurve

/-- The contents of a file. -/
inductive Contents where
  | bytes (data : ByteArray)
  | drawing (drawing : Drawing)

/-- The surroundings of a session. -/
structure Shell (m : Type → Type) where
  /-- The bytes of a file, unless it cannot be read. -/
  read : String → m (Option ByteArray)
  /-- Writes a file and says whether that was possible. -/
  write : String → Contents → m Bool
  /-- All of standard input. -/
  input : m ByteArray
  /-- Prints a text to standard output. -/
  print : String → m Unit
  /-- Prints a line to the log. -/
  report : String → m Unit

/-- The components that lead to a file from the folder that a session runs in. -/
abbrev Route := List (List Char)

/-- Files in memory, standard input, and what was printed and logged, the last first. -/
structure Desk where
  files : List (Route × Contents)
  input : ByteArray
  printed : List String
  reported : List String

namespace Desk

/-- There is a folder at the end of a path: one that holds a file, or the one that the session runs in, or one around
that. -/
def isFolder (d : Desk) (path : Route) : Bool :=
  path.all (· = FileName.parent) || d.files.any fun f => path.isPrefixOf f.1.dropLast

/-- The path from a folder to one of its members or to the folder around it. -/
def enter (folder : Route) (component : List Char) : Route :=
  if component = FileName.parent && !folder.all (· = FileName.parent) then folder.dropLast else folder ++ [component]

/-- Follows components from a path, each from a folder. -/
def walk? (d : Desk) : Route → List (List Char) → Option Route
  | path, [] => some path
  | path, c :: rest => if d.isFolder path then d.walk? (enter path c) rest else none

/-- The path of a file of a name, whether it is there or not. -/
def locate? (d : Desk) (name : String) : Option Route :=
  if FileName.isPossible name && !FileName.isAbsolute name then d.walk? [] (FileName.components name) else none

/-- The contents of a file. -/
def file? (d : Desk) (name : String) : Option Contents := do d.files.lookup (← d.locate? name)

/-- The path to write a file of a name to. There must be no folder of that name. -/
def target? (d : Desk) (name : String) : Option Route := (d.locate? name).filter fun path => !d.isFolder path

/-- Writes a file in place of one that is there. -/
def store (d : Desk) (path : Route) (contents : Contents) : Desk :=
  { d with files := (path, contents) :: d.files.filter fun f => f.1 != path }

def start (files : List (String × Contents)) (input : ByteArray) : Desk :=
  ⟨files.map fun (name, contents) => (FileName.components name, contents), input, [], []⟩

/-- Sessions at a desk. -/
def shell : Shell (StateM Desk) where
  read name := do
    match (← get).file? name with
    | some (.bytes data) => return some data
    | _ => return none
  write name contents := do
    match (← get).target? name with
    | some path =>
      modify fun d => d.store path contents
      return true
    | none => return false
  input := do return (← get).input
  print text := modify fun d => { d with printed := text :: d.printed }
  report line := modify fun d => { d with reported := line :: d.reported }

/-- All that was printed. -/
def output (d : Desk) : String := String.join d.printed.reverse

/-- The lines of the log. -/
def log (d : Desk) : List String := d.reported.reverse.flatMap fun line => line.splitOn "\n"

end Desk

end CodelCurve
