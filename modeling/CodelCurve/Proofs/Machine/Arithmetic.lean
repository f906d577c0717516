import CodelCurve.Proofs.Machine.Effect
import Mathlib.Data.Rat.Floor

/-! Exact arithmetic. Formulas and the machine round quotients down in different ways, the one from the quotient whose
remainder is not negative and the other from the truncated one. Both have the exact result of every operator, and both
refuse a zero divisor and a result that no word holds. -/

namespace CodelCurve

theorem fdiv_eq_floor (a b : Int) : a.fdiv b = ⌊(a : ℚ) / b⌋ := by
  have hnonneg : ∀ (a : Int) (n : Nat), a.fdiv n = ⌊(a : ℚ) / (n : Int)⌋ := by
    intro a n
    rw [Int.fdiv_eq_ediv_of_nonneg a (Int.natCast_nonneg n), Int.cast_natCast, Rat.floor_intCast_div_natCast]
  obtain ⟨n, rfl | rfl⟩ := b.eq_nat_or_neg
  · exact hnonneg a n
  · rw [← Int.neg_fdiv_neg, Int.neg_neg, hnonneg, Int.cast_neg, Int.cast_neg, neg_div, div_neg]

namespace Operator

/-- The exact result, with quotients rounded down. -/
def exact : Operator → Int → Int → Int
  | add, a, b => a + b
  | subtract, a, b => a - b
  | multiply, a, b => a * b
  | divide, a, b => ⌊(a : ℚ) / b⌋

theorem eval?_eq_check (operator : Operator) (a b : Int) :
    operator.eval? a b = if operator = divide ∧ b = 0 then none else Word.check (operator.exact a b) := by
  cases operator with
  | add => rfl
  | subtract => rfl
  | multiply => rfl
  | divide =>
      rw [eval?, Word.floorDiv?_eq, fdiv_eq_floor]
      simp [exact]

/-- The machine has the exact result on top of the stack, or stops for a zero divisor or an overflow. -/
theorem apply_op_eq (operator : Operator) (a b : Int) (rest : List Int) (block : Int) (p : Position) (h : Heading)
    (out : String) :
    operator.op.apply ⟨b :: a :: rest, block, p, h, out⟩ =
      if operator = divide ∧ b = 0 then .error .divisionByZero
      else if Word.Fits (operator.exact a b) then .ok ⟨operator.exact a b :: rest, 1, p.stepped h 1, h, out⟩
      else .error (.overflow operator.op) := by
  rw [Op.apply_operator_eq, compute, eval?_eq_check]
  by_cases hzero : operator = divide ∧ b = 0
  · rw [if_pos hzero, if_pos hzero]
    rfl
  · rw [if_neg hzero, if_neg hzero, if_neg hzero, Word.check]
    by_cases hfits : Word.Fits (operator.exact a b)
    · rw [if_pos hfits, if_pos hfits]
      rfl
    · rw [if_neg hfits, if_neg hfits]
      rfl

/-- An operator has a result in a formula exactly where its primitive succeeds, and it is the same one, the exact one.
Both fail exactly on a zero divisor and where the exact result does not fit. -/
theorem eval?_iff_apply (operator : Operator) (a b : Int) (rest : List Int) (block : Int) (p : Position) (h : Heading)
    (out : String) :
    (∀ v, operator.eval? a b = some v ↔
      ∃ s, operator.op.apply ⟨b :: a :: rest, block, p, h, out⟩ = .ok s ∧ s.stack = v :: rest) ∧
    (∀ v, operator.eval? a b = some v → v = operator.exact a b) ∧
    (operator.eval? a b = none ↔ (operator = divide ∧ b = 0) ∨ ¬ Word.Fits (operator.exact a b)) ∧
    ((∃ fault, operator.op.apply ⟨b :: a :: rest, block, p, h, out⟩ = .error fault) ↔
      (operator = divide ∧ b = 0) ∨ ¬ Word.Fits (operator.exact a b)) := by
  rw [eval?_eq_check, apply_op_eq]
  by_cases hzero : operator = divide ∧ b = 0
  · simp [hzero]
  · rw [if_neg hzero, if_neg hzero]
    by_cases hfits : Word.Fits (operator.exact a b)
    · simp [Word.check, hzero, hfits]
    · simp [Word.check, hzero, hfits]

/-- A quotient that is no whole number is rounded down below zero, and the least word has no negative. -/
theorem eval?_iff_apply_signs :
    divide.eval? 7 (-2) = some (-4) ∧ -4 = divide.exact 7 (-2) ∧
    (∃ s, Op.divide.apply ⟨[-2, 7], 1, ⟨0, 0⟩, .east, ""⟩ = .ok s ∧ s.stack = [-4]) ∧
    divide.eval? (-9223372036854775808) (-1) = none ∧ ¬ Word.Fits (divide.exact (-9223372036854775808) (-1)) := by
  have hrounded : divide.eval? 7 (-2) = some (-4) := by decide
  have hnone : divide.eval? (-9223372036854775808) (-1) = none := by decide
  obtain ⟨hiff, hexact, _⟩ := eval?_iff_apply divide 7 (-2) [] 1 ⟨0, 0⟩ .east ""
  obtain ⟨_, _, hfails, _⟩ := eval?_iff_apply divide (-9223372036854775808) (-1) [] 1 ⟨0, 0⟩ .east ""
  exact ⟨hrounded, hexact _ hrounded, (hiff _).mp hrounded, hnone, (hfails.mp hnone).resolve_left (by decide)⟩

end Operator

end CodelCurve
