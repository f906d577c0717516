import CodelCurve.Machine.Program

/-! The listing of a program, one line to an instruction, and the narration of a run, one line to each
instruction that begins and each primitive that is executed. -/

namespace CodelCurve

/-- A text brought to a width by putting a character in front of it. -/
def padLeft (fill : Char) (width : Nat) (text : String) : String :=
  String.ofList (List.replicate (width - text.length) fill) ++ text

namespace Program

/-- A number in four digits at least, its sign counted with them. -/
def offsetText (n : Int) : String :=
  if n < 0 then "-" ++ padLeft '0' 3 (toString n.natAbs) else padLeft '0' 4 (toString n.natAbs)

/-- The primitives of a composite, on a line below it. -/
def expansionLine (i : Instruction) : String :=
  "          | " ++ String.intercalate " " (i.expand.map Op.name) ++ "\n"

/-- The lines of instructions from an offset on: offset, size and instruction, and below each composite its
primitives when they are asked for. -/
def listingLines (expand : Bool) : Int → List Instruction → List String
  | _, [] => []
  | offset, i :: rest =>
    let size := padLeft ' ' 4 (toString i.size)
    let line := s!"{offsetText offset} {size}  {i.text}\n"
    let below := if expand && !i.isOp then [expansionLine i] else []
    line :: below ++ listingLines expand (offset + i.size) rest

/-- The listing of a program. -/
def listing (p : Program) (expand : Bool) : String :=
  let head := s!"== program ({p.body.length + 1} instructions, {p.size} codels) ==\n"
  String.join (head :: listingLines expand 0 p.instructions)

end Program

/-- What has been told of a run: the lines, the last first, and the state unless a fault stopped it. -/
structure Narration where
  lines : List String
  state : Option State

namespace Narration

def indent (level : Nat) (text : String) : String :=
  String.ofList (List.replicate (level * 2) ' ') ++ text

/-- Tells that an instruction begins. -/
def enter (level : Nat) (i : Instruction) (n : Narration) : Narration :=
  match n.state with
  | none => n
  | some state => ⟨indent level i.text :: n.lines, (i.enter state).toOption⟩

/-- Tells of a primitive and the state after it. -/
def step (level : Nat) (o : Op) (n : Narration) : Narration :=
  match n.state with
  | none => n
  | some state =>
    match o.apply state with
    | .ok next => ⟨indent level s!"{o.name} {next.text}" :: n.lines, some next⟩
    | .error _ => ⟨n.lines, none⟩

/-- The pass that tells of a run. -/
def telling : Pass Id Narration := ⟨fun level i n => enter level i n, fun level o n => step level o n⟩

end Narration

namespace Program

/-- The lines told of a run, up to the fault that stops it. -/
def narration (p : Program) : List String :=
  (p.instructions.foldl (fun n i => Id.run (Narration.telling.instruction 0 i n)) ⟨[], some .start⟩).lines.reverse

end Program

end CodelCurve
