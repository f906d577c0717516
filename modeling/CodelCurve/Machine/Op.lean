import CodelCurve.Color
import CodelCurve.Machine.State
import CodelCurve.Word

/-! The primitive instructions of the machine, each of which takes up one codel, and the faults that stop
it. -/

namespace CodelCurve

/-- A primitive instruction. -/
inductive Op where
  /-- The first codel of a program. -/
  | init
  /-- Enlarges the block of codels just left by one. -/
  | extend
  /-- Pushes the size of the block just left. -/
  | push
  | pop
  | duplicate
  | add
  | subtract
  | multiply
  /-- Divides, rounding towards negative infinity. -/
  | divide
  /-- Pops a number of clockwise quarter-turns and rotates the direction pointer by it. -/
  | pointer
  /-- Prints a number and a blank. -/
  | outNumber
  /-- Prints a character. -/
  | outChar
  deriving DecidableEq, Repr

/-- The composite instructions that may begin only after a block of a single codel. -/
inductive Composite where
  | resize
  | uTurn
  | noOp
  deriving DecidableEq, Repr

namespace Op

def all : List Op :=
  [init, extend, push, pop, duplicate, add, subtract, multiply, divide, pointer, outNumber, outChar]

def name : Op → String
  | init => "INIT"
  | extend => "EXTEND"
  | push => "PUSH"
  | pop => "POP"
  | duplicate => "DUPLICATE"
  | add => "ADD"
  | subtract => "SUBTRACT"
  | multiply => "MULTIPLY"
  | divide => "DIVIDE"
  | pointer => "POINTER"
  | outNumber => "OUT_NUMBER"
  | outChar => "OUT_CHAR"

/-- The primitive of a name. -/
def ofName? (text : String) : Option Op := all.find? fun o => o.name = text

/-- The shift of colour that leads into the codel of a primitive. -/
def shift : Op → Shift
  | init => ⟨0, 0⟩
  | extend => ⟨0, 0⟩
  | push => ⟨1, 0⟩
  | pop => ⟨2, 0⟩
  | add => ⟨0, 1⟩
  | subtract => ⟨1, 1⟩
  | multiply => ⟨2, 1⟩
  | divide => ⟨0, 2⟩
  | pointer => ⟨1, 3⟩
  | duplicate => ⟨0, 4⟩
  | outNumber => ⟨1, 5⟩
  | outChar => ⟨2, 5⟩

end Op

/-- Why the machine stops. -/
inductive Fault where
  /-- A program was started from a state other than the empty one. -/
  | notFresh (found : State)
  /-- A block of no codels was pushed. -/
  | nonPositivePush (block : Int)
  | stackUnderflow (op : Op) (needed found : Nat)
  | divisionByZero
  | overflow (op : Op)
  | invalidChar (code : Int)
  /-- A composite instruction was begun after a block of other than one codel. -/
  | unexpectedBlock (composite : Composite) (block : Int)
  deriving DecidableEq, Repr

namespace Composite

def name : Composite → String
  | resize => "resize"
  | uTurn => "U-turn"
  | noOp => "no-op"

end Composite

namespace Fault

def message : Fault → String
  | notFresh found => s!"Invalid non-empty context: \"{found.text}\""
  | nonPositivePush block => s!"Invalid non-positive push value {block}"
  | stackUnderflow op needed found => s!"Stack underflow in {op.name}: needs {needed} value(s), found {found}"
  | divisionByZero => "Division by zero"
  | overflow op => s!"Arithmetic overflow in {op.name}"
  | invalidChar code => s!"Invalid character code {code}"
  | unexpectedBlock composite block => s!"Invalid value before {composite.name}: {block}"

end Fault

/-- The character of a code, which has to be a Unicode scalar value. -/
def charOfCode? (code : Int) : Option Char :=
  if h : 0 ≤ code ∧ code.toNat.isValidChar then some (Char.ofNatAux code.toNat h.2) else none

namespace State

/-- Replaces the top of the stack by what a function makes of it. -/
def withTop (s : State) (op : Op) (f : Int → State → Except Fault State) : Except Fault State :=
  match s.stack with
  | top :: rest => f top { s with stack := rest }
  | [] => .error (.stackUnderflow op 1 0)

/-- Replaces the two values on top of the stack, the upper one second, by the result of an operation. -/
def combine (s : State) (op : Op) (f : Int → Int → Except Fault Int) : Except Fault State :=
  match s.stack with
  | b :: a :: rest => do
    let c ← f a b
    return { s with stack := c :: rest }
  | short => .error (.stackUnderflow op 2 short.length)

end State

namespace Op

/-- The result of an arithmetic operation, or an overflow. -/
def fitting (op : Op) : Option Int → Except Fault Int
  | some n => .ok n
  | none => .error (.overflow op)

/-- The quotient rounded towards negative infinity. The quotient that drops what follows the point is one more than that
where something remains and the signs differ. -/
def quotient (a b : Int) : Int := if a.tmod b ≠ 0 ∧ ¬ (a < 0 ↔ b < 0) then a.tdiv b - 1 else a.tdiv b

theorem quotient_eq_fdiv (a : Int) {b : Int} (hb : b ≠ 0) : quotient a b = a.fdiv b := by
  rw [quotient, Int.fdiv_eq_tdiv]
  by_cases hexact : a.tmod b = 0
  · rw [if_neg fun h => h.1 hexact, if_pos (Int.dvd_of_tmod_eq_zero hexact), Int.sub_zero]
  · rw [if_neg fun hdvd => hexact (Int.tmod_eq_zero_of_dvd hdvd)]
    by_cases ha : 0 ≤ a <;> obtain hneg | hpos := Int.lt_or_gt_of_ne hb
    · rw [if_pos ⟨hexact, by omega⟩, if_pos ha, if_neg (by omega)]
    · rw [if_neg fun h => h.2 (by omega), if_pos ha, if_pos (by omega), Int.sub_zero]
    · rw [if_neg fun h => h.2 (by omega), if_neg ha, if_neg (by omega), Int.sign_eq_neg_one_of_neg hneg]
      omega
    · rw [if_pos ⟨hexact, by omega⟩, if_neg ha, if_pos (by omega), Int.sign_eq_one_of_pos hpos]

/-- What a primitive does to the stack, the heading, the output and the block size, before the machine moves
on. -/
def perform (op : Op) (s : State) : Except Fault State :=
  match op with
  | init => if s = .start then .ok s else .error (.notFresh s)
  | extend => .ok { s with block := s.block + 1 }
  | push => if s.block ≤ 0 then .error (.nonPositivePush s.block) else .ok { s with stack := s.block :: s.stack }
  | pop => s.withTop op fun _ s => .ok s
  | duplicate => s.withTop op fun top s => .ok { s with stack := top :: top :: s.stack }
  | add => s.combine op fun a b => fitting op (Word.add? a b)
  | subtract => s.combine op fun a b => fitting op (Word.sub? a b)
  | multiply => s.combine op fun a b => fitting op (Word.mul? a b)
  | divide => s.combine op fun a b =>
      if b = 0 then .error .divisionByZero else fitting op (Word.check (quotient a b))
  | pointer => s.withTop op fun top s => .ok (s.rotate top)
  | outNumber => s.withTop op fun top s => .ok { s with output := s.output ++ toString top ++ " " }
  | outChar => s.withTop op fun top s =>
      match charOfCode? top with
      | some c => .ok { s with output := s.output.push c }
      | none => .error (.invalidChar top)

/-- The state after the codel of a primitive. All but `extend` begin a new block of one codel. -/
def apply (op : Op) (s : State) : Except Fault State := do
  let s ← op.perform s
  let s := if op = extend then s else { s with block := 1 }
  return s.advance 1

end Op

end CodelCurve
