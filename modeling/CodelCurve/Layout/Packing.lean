import CodelCurve.Layout.Token
import CodelCurve.Machine.Program

/-! Packing units into the slots of a path. Each slot takes units from the front while the next one fits; it
then gives units back while it ends with a resize, whose block the next instruction would have to continue, or
has a single codel left, which no filler can take. What is left over in the slot is filled. -/

namespace CodelCurve.Layout

/-- The contents of a slot in the making. -/
structure Slot where
  /-- The units in the slot, the last first. -/
  held : List Instruction
  /-- The codels not yet taken. -/
  free : Int
  /-- The units not yet placed. -/
  waiting : List Instruction
  deriving DecidableEq, Repr

namespace Slot

/-- Takes waiting units while the next one fits. -/
def take (held : List Instruction) (free : Int) : List Instruction → Slot
  | [] => ⟨held, free, []⟩
  | unit :: waiting =>
    if unit.size ≤ free then take (unit :: held) (free - unit.size) waiting else ⟨held, free, unit :: waiting⟩

/-- Gives units back while the slot ends with a resize or has a single codel free. An empty slot with a single
codel free cannot be filled. -/
def giveBack : List Instruction → Int → List Instruction → Option Slot
  | [], free, waiting => if free = 1 then none else some ⟨[], free, waiting⟩
  | unit :: held, free, waiting =>
    if unit.isResize || free = 1 then giveBack held (free + unit.size) (unit :: waiting)
    else some ⟨unit :: held, free, waiting⟩

/-- The slot of a capacity, packed from waiting units. -/
def pack? (capacity : Int) (waiting : List Instruction) : Option Slot :=
  let taken := take [] capacity waiting
  giveBack taken.held taken.free taken.waiting

/-- The filler for what is left over. -/
def filler (slot : Slot) : List Instruction := ((Length.ofInt? slot.free).map Instruction.noOp).toList

/-- The instructions of a slot with its filler, the last first. -/
def contents (slot : Slot) : List Instruction := slot.filler ++ slot.held

end Slot

/-- A program laid out in part. -/
structure Packing where
  /-- The instructions laid out, the last first. -/
  placed : List Instruction
  /-- The units not yet placed. -/
  waiting : List Instruction
  deriving DecidableEq, Repr

namespace Packing

/-- Lays out along one segment of a path. -/
def token (path : List Token) (p : Packing) : Token → Except LayoutError Packing
  | .start => .ok p
  | .turn turn => .ok ⟨.uTurn turn :: p.placed, p.waiting⟩
  | .slot capacity =>
    match Slot.pack? capacity p.waiting with
    | some slot => .ok ⟨slot.contents ++ p.placed, slot.waiting⟩
    | none => .error (.singleForward (Token.texts path) (Token.text (.slot capacity)))

/-- Lays out along segments in turn, each a part of the whole path. -/
def tokens (path : List Token) : List Token → Packing → Except LayoutError Packing
  | [], p => .ok p
  | t :: rest, p => do
    let p ← token path p t
    tokens path rest p

end Packing

/-- Lays units out along a path, with every slot filled and a U-turn for every turn. -/
def pack (units : List Instruction) (path : List Token) : Except LayoutError Program := do
  let packing ← Packing.tokens path path ⟨[], units⟩
  if packing.waiting.isEmpty then return ⟨packing.placed.reverse⟩
  else throw (.notEnoughSpace packing.waiting.length (Token.texts path) (Token.texts path))

/-- What is told of a slot that was filled. -/
structure SlotReport where
  capacity : Int
  /-- The instructions in the slot, the filler included. -/
  count : Nat
  /-- The codels that the filler takes. -/
  free : Int

/-- The slots that are filled when units are laid out along segments, up to the first failure. -/
def slotReports : List Token → List Instruction → List SlotReport
  | [], _ => []
  | .slot capacity :: rest, waiting =>
    match Slot.pack? capacity waiting with
    | some slot => ⟨capacity, slot.contents.length, slot.free⟩ :: slotReports rest slot.waiting
    | none => []
  | _ :: rest, waiting => slotReports rest waiting

end CodelCurve.Layout
