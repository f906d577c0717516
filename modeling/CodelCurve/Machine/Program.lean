import CodelCurve.Machine.CodelMap
import CodelCurve.Machine.Instruction

/-! Programs and their execution. A run starts from the empty state with the initial codel; it records on which
position each primitive is executed and which total shift of colour has been reached there. -/

namespace CodelCurve

/-- The instructions that follow the initial codel. -/
structure Program where
  body : List Instruction
  deriving DecidableEq, Repr

/-- The outcome of a run. -/
structure Execution where
  /-- The state at the end. -/
  state : State
  /-- The total shift of colour at each codel that was executed. -/
  codels : CodelMap

/-- A run in progress. -/
structure Trace where
  state : State
  codels : CodelMap
  /-- The total shift of colour so far. -/
  shift : Shift

namespace Trace

def start : Trace := ⟨.start, .empty, .zero⟩

/-- Executes a primitive, which colours the codel where the machine stands. -/
def step (o : Op) : Trace → Except Fault Trace
  | ⟨state, codels, shift⟩ => do
    let shift := shift + o.shift
    let codels := codels.insert state.position shift
    let state ← o.apply state
    return ⟨state, codels, shift⟩

/-- Checks an instruction where it begins. -/
def enter (i : Instruction) (t : Trace) : Except Fault Trace := do
  let state ← i.enter t.state
  return { t with state := state }

/-- The pass that records a run. -/
def recording : Pass (Except Fault) Trace := ⟨fun _ i t => t.enter i, fun _ o t => t.step o⟩

/-- Executes an instruction. -/
def instruction (i : Instruction) (t : Trace) : Except Fault Trace := recording.instruction 0 i t

/-- Executes instructions in turn. -/
def run : List Instruction → Trace → Except Fault Trace
  | [], t => .ok t
  | i :: rest, t => do
    let t ← t.instruction i
    run rest t

end Trace

namespace Program

/-- All instructions, from the initial codel on. -/
def instructions (p : Program) : List Instruction := .op .init :: p.body

/-- The codels of a list of instructions. -/
def sizeOf (body : List Instruction) : Int := body.foldl (fun total i => total + i.size) 0

/-- The codels of a program, the initial one included. -/
def size (p : Program) : Int := 1 + sizeOf p.body

/-- The units that are laid out one at a time, without the initial codel. -/
def units (p : Program) : List Instruction := p.body.flatMap Instruction.units

/-- All primitives, from the initial codel on. -/
def expanded (p : Program) : List Op := p.instructions.flatMap Instruction.expand

/-- Runs a program from the empty state. -/
def run (p : Program) : Except Fault Execution := do
  let t ← Trace.run p.instructions .start
  return ⟨t.state, t.codels⟩

end Program

end CodelCurve
