import CodelCurve.Formula.Basic

/-! The search for cheap formulas. Every number of a range starts as a single leaf. A sweep offers, for one
operator, the formulas that join the best ones known of two numbers, and an offer is taken when it is strictly
cheaper. The candidates of a sweep and their order depend on the range alone. -/

namespace CodelCurve

/-- The operators that a sweep can be made for. -/
inductive Sweep where
  | pow
  | mul
  | div
  | add
  | sub
  deriving DecidableEq, Repr

namespace Sweep

/-- All sweeps, in the order in which they are made unless another is asked for. -/
def rotation : List Sweep := [pow, mul, div, add, sub]

def name : Sweep → String
  | pow => "pow"
  | mul => "mul"
  | div => "div"
  | add => "add"
  | sub => "sub"

def ofName? (text : String) : Option Sweep := rotation.find? fun w => w.name = text

end Sweep

/-- A formula that is offered: an operator on the best formulas of two numbers, or a power of that of one. -/
inductive Candidate where
  | binary (operator : Operator) (left right : Nat)
  | power (base exponent : Nat)
  deriving DecidableEq, Repr

namespace Candidate

/-- The number that a candidate evaluates to. -/
def target? : Candidate → Option Int
  | binary operator left right => operator.eval? left right
  | power base exponent => some (Nat.pow base exponent)

end Candidate

/-- The numbers from a first to a last one. -/
def interval (first last : Nat) : List Nat := List.range' first (last + 1 - first)

namespace Sweep

/-- The pairs of numbers that a sweep joins, over the numbers up to a limit. -/
def candidates (limit : Nat) : Sweep → List Candidate
  | add => (interval 2 (limit - 2)).flatMap fun i => (interval i (limit - i)).map (.binary .add i)
  | sub => (interval 2 limit).reverse.flatMap fun i => (interval 1 (i - 1)).map (.binary .subtract i)
  | mul => (interval 2 (limit / 2)).flatMap fun i => (interval i (limit / i)).map (.binary .multiply i)
  | div => (interval 2 limit).reverse.flatMap fun i => (List.range' 2 (i / 2 - 2)).map (.binary .divide i)
  | pow => ((interval 2 limit).takeWhile fun b => b * b ≤ limit).flatMap fun b =>
      ((interval 2 limit.log2).takeWhile fun e => Nat.pow b e ≤ limit).map (.power b)

end Sweep

/-- A formula with its cost. -/
structure Entry where
  formula : Formula
  cost : Int
  deriving DecidableEq, Repr

/-- The best formulas found so far, that of the number one first. -/
structure Search where
  entries : Array Entry
  deriving DecidableEq, Repr

namespace Search

/-- The search over the numbers up to a limit, before any sweep. -/
def ofLimit (limit : Int) : Except BuildError Search :=
  if limit ≤ 0 then .error (.number limit)
  else .ok ⟨((interval 1 limit.toNat).map fun n => ⟨.leaf n, n⟩).toArray⟩

/-- The greatest number of the range. -/
def limit (s : Search) : Nat := s.entries.size

/-- The entry of a number. -/
def entry? (s : Search) (n : Int) : Option Entry := if 1 ≤ n then s.entries[(n - 1).toNat]? else none

def formula? (s : Search) (n : Int) : Option Formula := (s.entry? n).map Entry.formula

def cost? (s : Search) (n : Int) : Option Int := (s.entry? n).map Entry.cost

/-- The sum of all costs. -/
def total (s : Search) : Int := s.entries.foldl (fun sum e => sum + e.cost) 0

/-- The entry that a candidate would give its number. -/
def build? (s : Search) : Candidate → Option Entry
  | .binary operator left right => do
    let a ← s.entry? left
    let b ← s.entry? right
    return ⟨.binary operator a.formula b.formula, a.cost + b.cost + 1⟩
  | .power base exponent => do
    let b ← s.entry? base
    return ⟨.power b.formula exponent, b.cost + 2 * ((exponent : Int) - 1)⟩

/-- The number and the entry that a candidate gives it, when that is strictly cheaper. -/
def improvement? (s : Search) (c : Candidate) : Option (Int × Entry) := do
  let n ← c.target?
  let current ← s.entry? n
  let e ← s.build? c
  if e.cost < current.cost then some (n, e) else none

/-- Gives a number of the range an entry. -/
def replace (s : Search) (n : Int) (e : Entry) : Search := ⟨s.entries.setIfInBounds (n - 1).toNat e⟩

/-- Offers a candidate and counts whether it was taken. -/
def offer (s : Search × Nat) (c : Candidate) : Search × Nat :=
  match s.1.improvement? c with
  | some (n, e) => (s.1.replace n e, s.2 + 1)
  | none => s

/-- Makes a sweep. The second part of the answer is the number of entries that were replaced. -/
def sweep (s : Search) (w : Sweep) : Search × Nat := (w.candidates s.limit).foldl offer (s, 0)

/-- Makes sweeps in turn. -/
def run (s : Search) (schedule : List Sweep) : Search := schedule.foldl (fun s w => (s.sweep w).1) s

/-- What is told of a sweep: the entries replaced and the sum of costs after it. -/
structure Report where
  sweep : Sweep
  improved : Nat
  total : Int

/-- What is told of sweeps made in turn. -/
def reports : List Sweep → Search → List Report
  | [], _ => []
  | w :: rest, s =>
    let (next, improved) := s.sweep w
    ⟨w, improved, next.total⟩ :: reports rest next

end Search

/-- The range of a search and the sweeps it makes. -/
structure SearchPlan where
  /-- The greatest number. -/
  limit : Int
  /-- How often the sweeps are made. -/
  rounds : Nat
  sweeps : List Sweep
  deriving DecidableEq, Repr

namespace SearchPlan

def standard : SearchPlan := ⟨128, 2, Sweep.rotation⟩

/-- All sweeps of a plan in order. -/
def schedule (p : SearchPlan) : List Sweep := (List.replicate p.rounds p.sweeps).flatten

end SearchPlan

end CodelCurve
