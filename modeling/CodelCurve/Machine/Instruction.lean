import CodelCurve.Formula.Basic
import CodelCurve.Machine.Op

/-! Instructions, primitive and composite. A composite stands for a list of smaller instructions; there are
three ways to take one apart: into its immediate parts, into the units that are laid out one at a time, and
into primitives. Running an instruction goes through its parts and checks each composite where it begins. -/

namespace CodelCurve

/-- A length of at least two codels. -/
structure Length where
  codels : Nat
  two_le : 2 ≤ codels
  deriving DecidableEq, Repr

namespace Length

/-- The length of a number of codels, when there are at least two. -/
def ofInt? (n : Int) : Option Length := if h : 2 ≤ n then some ⟨n.toNat, by omega⟩ else none

def two : Length := ⟨2, by decide⟩

def three : Length := ⟨3, by decide⟩

end Length

/-- The two kinds of U-turn. -/
inductive Turn where
  | clockwise
  | anticlockwise
  deriving DecidableEq, Repr

/-- An instruction of a program. -/
inductive Instruction where
  | op (op : Op)
  /-- Brings the block just left from one codel to the length. -/
  | resize (length : Length)
  /-- Reverses the heading and keeps the stack. -/
  | uTurn (turn : Turn)
  /-- Fills the length and keeps stack and heading. -/
  | noOp (length : Length)
  /-- Leaves the value of a formula on the stack. -/
  | number (formula : Formula)
  deriving DecidableEq, Repr

namespace Operator

/-- The primitive that computes an operator. -/
def op : Operator → Op
  | add => .add
  | subtract => .subtract
  | multiply => .multiply
  | divide => .divide

end Operator

namespace Instruction

/-- A resize, whose length has to be at least two. -/
def ofResize (length : Int) : Except BuildError Instruction :=
  match Length.ofInt? length with
  | some l => .ok (resize l)
  | none => .error (.resize length)

/-- A filler, whose length has to be at least two. -/
def ofNoOp (length : Int) : Except BuildError Instruction :=
  match Length.ofInt? length with
  | some l => .ok (noOp l)
  | none => .error (.noOp length)

def isResize : Instruction → Bool
  | resize _ => true
  | _ => false

def isOp : Instruction → Bool
  | op _ => true
  | _ => false

/-- The codels that an instruction takes up. A U-turn has three codels from its corner on, after a set-up of
three or, with a block of three to turn by, of five. -/
def size : Instruction → Int
  | op _ => 1
  | resize length => (length.codels : Int) - 1
  | uTurn .clockwise => 3 + 3
  | uTurn .anticlockwise => 5 + 3
  | noOp length => length.codels
  | number formula => formula.cost

/-- The primitives of a U-turn after the block it turns by. -/
def pivot : List Op := [.push, .duplicate, .duplicate, .pointer, .pop, .pointer]

/-- Doublings of a pushed value, two codels each. -/
def doublings : Nat → List Op
  | 0 => []
  | n + 1 => .duplicate :: .add :: doublings n

/-- The resize that makes a block of a size, for sizes beyond a single codel. -/
def blockOf (n : Int) : List Instruction :=
  match Length.ofInt? n with
  | some length => [resize length]
  | none => []

/-- The immediate parts of a composite, in order. Primitives have none. A power repeats its primitives once less than its
exponent says; for an exponent of zero, which `Formula.ofPower` refuses, the difference is zero here, while among numbers
of 32 bits there is none. -/
def parts : Instruction → List Instruction
  | op _ => []
  | resize length => List.replicate (length.codels - 1) (op .extend)
  | uTurn .clockwise => pivot.map op
  | uTurn .anticlockwise => resize .three :: pivot.map op
  | noOp length =>
    op .push :: (if length.codels % 2 = 1 then [resize .two] else [])
      ++ (doublings (length.codels / 2 - 1)).map op ++ [op .pop]
  | number (.leaf n) => blockOf n ++ [op .push]
  | number (.binary operator left right) => [number left, number right, op operator.op]
  | number (.power base exponent) =>
    number base :: List.replicate (exponent - 1) (op .duplicate)
      ++ List.replicate (exponent - 1) (op .multiply)

end Instruction

namespace Formula

/-- The primitives of a formula in the order of their execution. An exponent of zero repeats nothing, as in
`Instruction.parts`. -/
def expand : Formula → List Op
  | leaf n => List.replicate (n.toNat - 1) .extend ++ [.push]
  | binary operator left right => left.expand ++ right.expand ++ [operator.op]
  | power base exponent =>
    base.expand ++ List.replicate (exponent - 1) .duplicate ++ List.replicate (exponent - 1) .multiply

/-- The primitives and resizes of a formula in the order of their execution. -/
def units : Formula → List Instruction
  | leaf n => Instruction.blockOf n ++ [.op .push]
  | binary operator left right => left.units ++ right.units ++ [.op operator.op]
  | power base exponent =>
    base.units ++ List.replicate (exponent - 1) (.op .duplicate)
      ++ List.replicate (exponent - 1) (.op .multiply)

end Formula

namespace Instruction

/-- The primitives of an instruction in the order of their execution. -/
def expand : Instruction → List Op
  | op o => [o]
  | resize length => List.replicate (length.codels - 1) .extend
  | uTurn .clockwise => pivot
  | uTurn .anticlockwise => .extend :: .extend :: pivot
  | noOp length =>
    .push :: (if length.codels % 2 = 1 then [.extend] else [])
      ++ doublings (length.codels / 2 - 1) ++ [.pop]
  | number formula => formula.expand

/-- The units that are laid out one at a time: a primitive or a resize is one, and a longer composite
gives those of its parts. -/
def units : Instruction → List Instruction
  | number formula => formula.units
  | op o => [op o]
  | resize length => [resize length]
  | uTurn turn => parts (uTurn turn)
  | noOp length => parts (noOp length)

/-- The total shift of colour over the primitives. -/
def shift (i : Instruction) : Shift := i.expand.foldl (fun total o => total + o.shift) .zero

/-- The composite kinds that have to begin after a block of one codel. -/
def composite? : Instruction → Option Composite
  | resize _ => some .resize
  | uTurn _ => some .uTurn
  | noOp _ => some .noOp
  | op _ => none
  | number _ => none

/-- The check made where an instruction begins. -/
def enter (i : Instruction) (s : State) : Except Fault State :=
  match i.composite? with
  | some kind => if s.block = 1 then .ok s else .error (.unexpectedBlock kind s.block)
  | none => .ok s

def text : Instruction → String
  | op o => o.name
  | resize length => s!"RESIZE {length.codels}"
  | uTurn .clockwise => "UTURN clockwise"
  | uTurn .anticlockwise => "UTURN anticlockwise"
  | noOp length => s!"NOOP {length.codels}"
  | number formula => s!"NUMBER {formula.value} = {formula.text}"

end Instruction

section Traversal

variable {m : Type → Type} [Monad m] {σ : Type}

/-- A pass over instructions: what is done where a composite begins and what at each primitive, given how
many composites enclose it. -/
structure Pass (m : Type → Type) (σ : Type) where
  enter : Nat → Instruction → σ → m σ
  step : Nat → Op → σ → m σ

/-- A primitive a number of times. -/
def Pass.times (pass : Pass m σ) (level : Nat) (o : Op) : Nat → σ → m σ
  | 0, s => pure s
  | n + 1, s => do
    let s ← pass.step level o s
    pass.times level o n s

/-- Primitives in turn. -/
def Pass.ops (pass : Pass m σ) (level : Nat) : List Op → σ → m σ
  | [], s => pure s
  | o :: rest, s => do
    let s ← pass.step level o s
    pass.ops level rest s

/-- A resize: its beginning, then its extensions. -/
def Pass.resize (pass : Pass m σ) (level : Nat) (length : Length) (s : σ) : m σ := do
  let s ← pass.enter level (.resize length) s
  pass.times (level + 1) .extend (length.codels - 1) s

/-- The parts of a formula that stands at a level. -/
def Pass.formula (pass : Pass m σ) (level : Nat) : Formula → σ → m σ
  | .leaf n, s => do
    let s ← match Length.ofInt? n with
      | some length => pass.resize (level + 1) length s
      | none => pure s
    pass.step (level + 1) .push s
  | .binary operator left right, s => do
    let s ← pass.enter (level + 1) (.number left) s
    let s ← pass.formula (level + 1) left s
    let s ← pass.enter (level + 1) (.number right) s
    let s ← pass.formula (level + 1) right s
    pass.step (level + 1) operator.op s
  | .power base exponent, s => do
    let s ← pass.enter (level + 1) (.number base) s
    let s ← pass.formula (level + 1) base s
    let s ← pass.times (level + 1) .duplicate (exponent - 1) s
    pass.times (level + 1) .multiply (exponent - 1) s

/-- An instruction at a level: a primitive is a step; a composite is its beginning and then its parts, one
level further in. -/
def Pass.instruction (pass : Pass m σ) (level : Nat) (i : Instruction) (s : σ) : m σ :=
  match i with
  | .op o => pass.step level o s
  | .resize length => pass.resize level length s
  | .uTurn turn => do
    let s ← pass.enter level i s
    let s ← match turn with
      | .clockwise => pure s
      | .anticlockwise => pass.resize (level + 1) .three s
    pass.ops (level + 1) Instruction.pivot s
  | .noOp length => do
    let s ← pass.enter level i s
    let s ← pass.step (level + 1) .push s
    let s ← if length.codels % 2 = 1 then pass.resize (level + 1) .two s else pure s
    let s ← pass.ops (level + 1) (Instruction.doublings (length.codels / 2 - 1)) s
    pass.step (level + 1) .pop s
  | .number formula => do
    let s ← pass.enter level i s
    pass.formula level formula s

end Traversal

namespace Instruction

/-- The pass that runs instructions on a state. -/
def running : Pass (Except Fault) State := ⟨fun _ i s => i.enter s, fun _ o s => o.apply s⟩

/-- The state after an instruction. -/
def apply (i : Instruction) (s : State) : Except Fault State := running.instruction 0 i s

end Instruction

end CodelCurve
