import CodelCurve.Word

/-! Formulas: arithmetic expressions that leave a number on the stack. A formula has a value, a cost in codels
and an infix text. -/

namespace CodelCurve

/-- The operators that join two formulas. -/
inductive Operator where
  | add
  | subtract
  | multiply
  | divide
  deriving DecidableEq, Repr

namespace Operator

def all : List Operator := [add, subtract, multiply, divide]

def symbol : Operator → Char
  | add => '+'
  | subtract => '-'
  | multiply => '*'
  | divide => '/'

/-- Sums and differences bind less tightly than products and quotients. -/
def precedence : Operator → Nat
  | add => 1
  | subtract => 1
  | multiply => 2
  | divide => 2

/-- The exact result, with quotients rounded down. There is none on overflow or a zero divisor. -/
def eval? : Operator → Int → Int → Option Int
  | add, a, b => Word.add? a b
  | subtract, a, b => Word.sub? a b
  | multiply, a, b => Word.mul? a b
  | divide, a, b => Word.floorDiv? a b

end Operator

/-- An arithmetic expression that leaves its value on the stack. -/
inductive Formula where
  /-- A block of codels of that size, pushed. -/
  | leaf (n : Int)
  /-- Both operands, then the operator. -/
  | binary (operator : Operator) (left right : Formula)
  /-- The base, duplicated as often as it is then multiplied. -/
  | power (base : Formula) (exponent : Nat)
  deriving DecidableEq, Repr, Inhabited

namespace Formula

/-- The value of a formula, unless its arithmetic fails. -/
def value? : Formula → Option Int
  | leaf n => some n
  | binary operator left right => do
    let a ← left.value?
    let b ← right.value?
    operator.eval? a b
  | power base exponent => do
    let b ← base.value?
    Word.pow? b exponent

/-- The value of a formula, and zero if its arithmetic fails. -/
def value (f : Formula) : Int := f.value?.getD 0

/-- The codels it takes to produce the value. -/
def cost : Formula → Int
  | leaf n => n
  | binary _ left right => left.cost + right.cost + 1
  | power base exponent => base.cost + 2 * ((exponent : Int) - 1)

/-- The nested levels of operators. -/
def depth : Formula → Nat
  | leaf _ => 0
  | binary _ left right => max left.depth right.depth + 1
  | power base _ => base.depth + 1

/-- Powers bind more tightly than products, and a single number most tightly. -/
def precedence : Formula → Nat
  | leaf _ => 10
  | binary operator _ _ => operator.precedence
  | power _ _ => 3

/-- The text of an operand below an operator: parentheses are put unless the operand binds more tightly. -/
def enclose (parent own : Nat) (text : List Char) : List Char :=
  if own ≤ parent then '(' :: text ++ [')'] else text

/-- The characters of the infix text. -/
def chars : Formula → List Char
  | leaf n => (toString n).toList
  | binary operator left right =>
    enclose operator.precedence left.precedence left.chars ++ [' ', operator.symbol, ' ']
      ++ enclose operator.precedence right.precedence right.chars
  | power base exponent =>
    enclose 3 base.precedence base.chars ++ [' ', '^', ' '] ++ (toString exponent).toList

/-- The infix text. -/
def text (f : Formula) : String := String.ofList f.chars

end Formula

/-- Why an instruction or a formula cannot be built. -/
inductive BuildError where
  | resize (length : Int)
  | noOp (length : Int)
  | number (n : Int)
  | exponent (e : Nat)
  /-- The arithmetic of the formula fails. -/
  | formula (f : Formula)
  deriving DecidableEq, Repr

namespace BuildError

def message : BuildError → String
  | resize length => s!"Invalid resize value {length}; must be at least 2"
  | noOp length => s!"Invalid no-op length: {length}"
  | number n => s!"Invalid non-positive number {n}"
  | exponent e => s!"Invalid exponent {e}; must be at least 2"
  | formula f => s!"Invalid number tree {f.text}; its arithmetic fails"

end BuildError

namespace Formula

/-- A single number, which has to be positive. -/
def ofNumber (n : Int) : Except BuildError Formula :=
  if n ≤ 0 then .error (.number n) else .ok (leaf n)

/-- A power, whose exponent has to be at least two. -/
def ofPower (base : Formula) (exponent : Nat) : Except BuildError Formula :=
  if exponent < 2 then .error (.exponent exponent) else .ok (power base exponent)

/-- Built of positive numbers and of exponents from two on, as the checked constructors give them. -/
def Proper : Formula → Prop
  | leaf n => 1 ≤ n
  | binary _ left right => left.Proper ∧ right.Proper
  | power base exponent => base.Proper ∧ 2 ≤ exponent

/-- All numbers are at least one. -/
def PositiveNumbers : Formula → Prop
  | leaf n => 1 ≤ n
  | binary _ left right => left.PositiveNumbers ∧ right.PositiveNumbers
  | power base _ => base.PositiveNumbers

end Formula

end CodelCurve
