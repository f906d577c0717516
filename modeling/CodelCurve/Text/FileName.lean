/-! The names of files: their components, which lead through folders, and the extension that tells a format. -/

namespace CodelCurve.FileName

/-- What stands between the occurrences of a character. -/
def split (mark : Char) : List Char → List (List Char)
  | [] => [[]]
  | c :: rest => if c = mark then [] :: split mark rest else (split mark rest).modifyHead (c :: ·)

/-- What stands between the slashes of a name. -/
def segments (name : String) : List (List Char) := split '/' name.toList

/-- The component that leads to the folder around a folder. -/
def parent : List Char := ['.', '.']

/-- The components of a name: its segments without those that stay where they are. -/
def components (name : String) : List (List Char) := (segments name).filter fun c => c != [] && c != ['.']

/-- The name can only be that of a folder. -/
def isFolderName (name : String) : Bool :=
  match (segments name).getLast? with
  | some last => [[], ['.'], parent].contains last
  | none => true

/-- The greatest number of bytes of a name. -/
def greatestLength : Nat := 4095

/-- The greatest number of bytes of a component of a name. -/
def greatestComponent : Nat := 255

/-- There can be a file of a name. -/
def isPossible (name : String) : Bool :=
  !isFolderName name && name.utf8ByteSize ≤ greatestLength
    && (components name).all fun c => (String.ofList c).utf8ByteSize ≤ greatestComponent && !c.contains '\x00'

/-- The name does not begin where the session runs. -/
def isAbsolute (name : String) : Bool := name.startsWith "/"

/-- The last component, unless it leads to another folder. -/
def base? (name : String) : Option (List Char) :=
  match (components name).getLast? with
  | some base => if base = parent then none else some base
  | none => none

/-- What follows the last dot of a name that does not begin with that dot. -/
def extension? (name : String) : Option (List Char) := do
  let reversed := (← base? name).reverse
  let before := reversed.dropWhile (· != '.')
  if before.length ≤ 1 then none else some (reversed.takeWhile (· != '.')).reverse

/-- The extension of a name is a given one, in letters of either case. -/
def hasExtension (extension name : String) : Bool :=
  match extension? name with
  | some e => e.map Char.toLower = extension.toList.map Char.toLower
  | none => false

end CodelCurve.FileName
