import CodelCurve.Layout.Fit
import CodelCurve.Table.Basic

/-! From a text to a program that prints it: each printable character becomes a number and its output, the
program is laid out on the smallest curve that has room, and it is run. -/

namespace CodelCurve

open Layout (LayoutError Orders Fitted)

/-- The characters that are printed: those of ASCII that are visible or white space. -/
def isPrintable (c : Char) : Bool :=
  (0x20 ≤ c.toNat && c.toNat ≤ 0x7E) || (0x09 ≤ c.toNat && c.toNat ≤ 0x0D)

/-- Why no program was made of a text. -/
inductive SynthesisError where
  | build (e : BuildError)
  | layout (e : LayoutError)
  | fault (e : Fault)
  deriving DecidableEq, Repr

namespace SynthesisError

def message : SynthesisError → String
  | build e => s!"Construction error: {e.message}"
  | layout e => s!"Layout error: {e.message}"
  | fault e => s!"Semantic error: {e.message}"

end SynthesisError

/-- The instructions that print characters. -/
def printing (table : Table) : List Char → Except BuildError (List Instruction)
  | [] => .ok []
  | c :: rest => do
    let number ← table.number c.toNat
    let body ← printing table rest
    return number :: .op .outChar :: body

/-- The program that prints the printable characters of a text, before it is laid out. -/
def compile (text : List Char) (table : Table) : Except BuildError Program := do
  return ⟨← printing table (text.filter isPrintable)⟩

/-- The characters of a text that are not printed. -/
def skipped (text : List Char) : Nat := text.countP fun c => !isPrintable c

/-- A program laid out and run. -/
structure Synthesis where
  program : Program
  /-- The order of the curve that the program follows. -/
  order : Nat
  execution : Execution

namespace Synthesis

/-- What the program prints. -/
def output (s : Synthesis) : String := s.execution.state.output

end Synthesis

/-- Makes a program of a text, lays it out on the smallest curve that has room and runs it. -/
def synthesize (text : List Char) (table : Table) (orders : Orders) : Except SynthesisError Synthesis := do
  let compiled ← (compile text table).mapError .build
  let fitted ← (Layout.fit compiled.units orders).mapError .layout
  let execution ← fitted.program.run.mapError .fault
  return ⟨fitted.program, fitted.order, execution⟩

end CodelCurve
