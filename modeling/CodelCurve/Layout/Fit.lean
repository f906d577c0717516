import CodelCurve.Layout.Packing

/-! Fitting a program on a curve: curves of one order after another are tried until one has room. -/

namespace CodelCurve.Layout

/-- The orders of curves that are tried. -/
structure Orders where
  first : Nat
  last : Nat
  deriving DecidableEq, Repr

namespace Orders

def standard : Orders := ⟨1, 4⟩

end Orders

/-- A program laid out on the curve of an order. -/
structure Fitted where
  program : Program
  order : Nat
  deriving DecidableEq, Repr

/-- Lays units out on the curve of an order. -/
def attempt (units : List Instruction) (order : Nat) : Except LayoutError Program := do
  let path := Curve.generate order
  let tokens ← Token.tokenize path
  (pack units tokens).mapError (LayoutError.onPath (String.ofList path))

/-- The outcomes on curves of increasing order, up to the first success. -/
def attempts (units : List Instruction) (order : Nat) : Nat → List (Nat × Except LayoutError Program)
  | 0 => []
  | count + 1 =>
    match attempt units order with
    | .ok program => [(order, .ok program)]
    | .error e => (order, .error e) :: attempts units (order + 1) count

/-- The outcomes on the curves of a range of orders. -/
def Orders.attempts (orders : Orders) (units : List Instruction) : List (Nat × Except LayoutError Program) :=
  Layout.attempts units orders.first (orders.last + 1 - orders.first)

/-- What a list of outcomes comes to: the success that ends it, or the last failure. -/
def conclude (orders : Orders) (units : List Instruction) :
    List (Nat × Except LayoutError Program) → Except LayoutError Fitted
  | [] => .error (.exhausted orders.last (.notEnoughSpace units.length "" ""))
  | [(order, .ok program)] => .ok ⟨program, order⟩
  | [(_, .error e)] => .error (.exhausted orders.last e)
  | _ :: rest => conclude orders units rest

/-- Lays units out on the smallest curve of a range that has room. -/
def fit (units : List Instruction) (orders : Orders) : Except LayoutError Fitted :=
  conclude orders units (orders.attempts units)

end CodelCurve.Layout
