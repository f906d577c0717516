/-! Signed 64-bit words. The machine and the formulas compute on integers that have to stay within 64 bits;
an operation is performed exactly and refused when its exact result does not fit. -/

namespace CodelCurve.Word

/-- The least number a word holds. -/
def least : Int := -9223372036854775808

/-- The greatest number a word holds. -/
def greatest : Int := 9223372036854775807

/-- A number is within the range of a word. -/
def Fits (n : Int) : Prop := least ≤ n ∧ n ≤ greatest

instance (n : Int) : Decidable (Fits n) := inferInstanceAs (Decidable (_ ∧ _))

/-- The number itself, when it fits. -/
def check (n : Int) : Option Int := if Fits n then some n else none

def add? (a b : Int) : Option Int := check (a + b)

def sub? (a b : Int) : Option Int := check (a - b)

def mul? (a b : Int) : Option Int := check (a * b)

/-- The quotient rounded towards negative infinity. The quotient whose remainder is not negative is one more than that
where the divisor is negative and something remains. A zero divisor has none. -/
def floorDiv? (a b : Int) : Option Int :=
  if b = 0 then none else check (if b < 0 ∧ a % b ≠ 0 then a / b - 1 else a / b)

/-- The power of a base. From the 64th power on only the bases of magnitude at most one have powers that fit,
and those repeat with period two. -/
def pow? (base : Int) (exponent : Nat) : Option Int :=
  if exponent < 64 then check (Int.pow base exponent)
  else if base.natAbs ≤ 1 then check (Int.pow base (2 + exponent % 2))
  else none

theorem check_eq_some_iff {n m : Int} : check n = some m ↔ Fits n ∧ n = m := by
  simp [check]

theorem check_eq_none_iff {n : Int} : check n = none ↔ ¬ Fits n := by
  simp [check]

theorem floorDiv?_eq (a b : Int) : floorDiv? a b = if b = 0 then none else check (a.fdiv b) := by
  have hrounded : (if b < 0 ∧ a % b ≠ 0 then a / b - 1 else a / b) = a.fdiv b := by
    rw [Int.fdiv_eq_ediv]
    by_cases hexact : a % b = 0
    · simp [hexact, Int.dvd_of_emod_eq_zero hexact]
    · have hdvd : ¬ b ∣ a := fun h => hexact (Int.emod_eq_zero_of_dvd h)
      by_cases hb : b < 0
      · rw [if_pos ⟨hb, hexact⟩, if_neg (by omega)]
      · rw [if_neg fun h => hb h.1, if_pos (.inl (by omega)), Int.sub_zero]
  rw [floorDiv?, hrounded]

end CodelCurve.Word
