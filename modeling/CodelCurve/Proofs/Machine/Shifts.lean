import CodelCurve.Machine.Op
import Mathlib.Algebra.Group.Int.Defs
import Mathlib.Data.List.Induction

/-! Total shifts. The total of a run is kept in 32 bits and wraps around. No primitive shifts backwards, so as long as the
sums over a whole run fit, all totals on the way are sums, and then no primitive but an extension keeps the colour. -/

namespace CodelCurve

namespace Shift

/-- Two shifts lead from a colour to the same colour. -/
def SameColor (s t : Shift) : Prop :=
  s.lightness.toInt % 3 = t.lightness.toInt % 3 ∧ s.hue.toInt % 6 = t.hue.toInt % 6

theorem SameColor.symm {s t : Shift} (h : s.SameColor t) : t.SameColor s := ⟨h.1.symm, h.2.symm⟩

/-- One of the two parts of a shift, in which no primitive shifts backwards. -/
structure IsPart (part : Shift → Int32) : Prop where
  zero : part .zero = 0
  add : ∀ s t, part (s + t) = part s + part t
  nonneg : ∀ o : Op, 0 ≤ (part o.shift).toInt

theorem isPart_lightness : IsPart lightness := ⟨rfl, lightness_add, fun o => by cases o <;> decide⟩

theorem isPart_hue : IsPart hue := ⟨rfl, hue_add, fun o => by cases o <;> decide⟩

end Shift

namespace Op

def totalShift (os : List Op) : Shift := os.foldl (fun total o => total + o.shift) .zero

/-- The sum of the shifts of primitives, in lightness or in hue, which does not wrap around. -/
def reach (part : Shift → Int32) : List Op → Int
  | [] => 0
  | o :: os => (part o.shift).toInt + reach part os

theorem reach_append (part : Shift → Int32) (os rest : List Op) :
    reach part (os ++ rest) = reach part os + reach part rest := by
  induction os with
  | nil => exact (Int.zero_add _).symm
  | cons o os ih => rw [List.cons_append, reach, reach, ih, Int.add_assoc]

end Op

namespace Shift.IsPart

variable {part : Shift → Int32} (h : IsPart part)

include h

theorem reach_nonneg (os : List Op) : 0 ≤ Op.reach part os := by
  induction os with
  | nil => exact Int.le_refl 0
  | cons o os ih => exact Int.add_nonneg (h.nonneg o) ih

end Shift.IsPart

open Shift (isPart_lightness isPart_hue)

namespace Op

/-- Counted from a lightness and a hue, the sums over primitives fit 32 bits. -/
def Fits (lightness hue : Nat) (os : List Op) : Prop :=
  lightness + reach Shift.lightness os < 2 ^ 31 ∧ hue + reach Shift.hue os < 2 ^ 31

instance (lightness hue : Nat) (os : List Op) : Decidable (Fits lightness hue os) := inferInstanceAs (Decidable (_ ∧ _))

theorem Fits.of_append {lightness hue : Nat} {os rest : List Op} (h : Fits lightness hue (os ++ rest)) :
    Fits lightness hue os := by
  obtain ⟨hlightness, hhue⟩ := h
  rw [reach_append] at hlightness hhue
  have hlighter := isPart_lightness.reach_nonneg rest
  have hfurther := isPart_hue.reach_nonneg rest
  exact ⟨by omega, by omega⟩

end Op

end CodelCurve
