import CodelCurve.Curve.Walk
import CodelCurve.Machine.Instruction

/-! Directions and distances in the plane. A cell is measured along a heading and to a side of it, so that what
holds for one heading and side is stated once for all of them. -/

namespace CodelCurve

namespace Turn

/-- The turn to the other side. -/
def other : Turn → Turn
  | clockwise => anticlockwise
  | anticlockwise => clockwise

/-- The character that turns to a side. -/
def mark : Turn → Char
  | clockwise => '+'
  | anticlockwise => '-'

@[simp] theorem other_other (t : Turn) : t.other.other = t := by
  cases t <;> rfl

theorem mark_ne_step (t : Turn) : t.mark ≠ 'F' := by
  cases t <;> decide

end Turn

namespace Heading

/-- The heading after a quarter-turn to a side. -/
def turned (h : Heading) : Turn → Heading
  | .clockwise => h.clockwise
  | .anticlockwise => h.clockwise.clockwise.clockwise

def opposite (h : Heading) : Heading := h.clockwise.clockwise

@[simp] theorem turned_turned (h : Heading) (t : Turn) : (h.turned t).turned t = h.opposite := by
  cases h <;> cases t <;> rfl

@[simp] theorem opposite_turned_other (h : Heading) (t : Turn) : h.opposite.turned t.other = h.turned t := by
  cases h <;> cases t <;> rfl

@[simp] theorem opposite_opposite (h : Heading) : h.opposite.opposite = h := by
  cases h <;> rfl

theorem rotated_mark (h : Heading) (t : Turn) : h.rotated (Curve.Turtle.quarterTurns t.mark) = h.turned t := by
  cases h <;> cases t <;> rfl

theorem rotated_one (h : Heading) : h.rotated 1 = h.turned .clockwise := rfl

theorem rotated_three (h : Heading) : h.rotated 3 = h.turned .anticlockwise := rfl

end Heading

namespace Position

/-- Two cells share a side. -/
def Adjacent (p q : Position) : Prop := (p.x - q.x).natAbs + (p.y - q.y).natAbs = 1

instance (p q : Position) : Decidable (p.Adjacent q) := inferInstanceAs (Decidable (_ = _))

/-- How far a cell lies in the direction of a heading. -/
def along (h : Heading) (p : Position) : Int := h.unit.1 * p.x + h.unit.2 * p.y

/-- The cell some steps along a heading and some to a side of it. -/
def offset (p : Position) (h : Heading) (t : Turn) (steps aside : Int) : Position :=
  (p.stepped h steps).stepped (h.turned t) aside

/-- A coordinate is one of those from one given coordinate to another. -/
def Amid (a b c : Int) : Prop := min a b ≤ c ∧ c ≤ max a b

/-- A cell of the rectangle with two given corners. -/
def Between (c p q : Position) : Prop := Amid p.x q.x c.x ∧ Amid p.y q.y c.y

theorem ext_iff {p q : Position} : p = q ↔ p.x = q.x ∧ p.y = q.y := by
  cases p; cases q; simp

theorem along_stepped (p : Position) (h : Heading) (steps : Int) :
    (p.stepped h steps).along h = p.along h + steps := by
  cases h <;> simp only [along, stepped, Heading.unit] <;> omega

theorem adjacent_stepped (p : Position) (h : Heading) : p.Adjacent (p.stepped h 1) := by
  cases h <;> simp only [Adjacent, stepped, Heading.unit] <;> omega

theorem Adjacent.symm {p q : Position} (h : p.Adjacent q) : q.Adjacent p := by
  unfold Adjacent at h ⊢
  omega

theorem Adjacent.cases {p q : Position} (h : p.Adjacent q) :
    (q.y = p.y ∧ (q.x = p.x - 1 ∨ q.x = p.x + 1)) ∨ (q.x = p.x ∧ (q.y = p.y - 1 ∨ q.y = p.y + 1)) := by
  unfold Adjacent at h
  omega

/-- Neighbours differ by at most one in any direction. -/
theorem Adjacent.along_le {p q : Position} (hadj : p.Adjacent q) (h : Heading) : q.along h ≤ p.along h + 1 := by
  unfold Adjacent at hadj
  cases h <;> simp only [along, Heading.unit] <;> omega

/-- A neighbour further ahead is the next cell. -/
theorem Adjacent.eq_stepped {p q : Position} {h : Heading} (hadj : p.Adjacent q) (hlt : p.along h < q.along h) :
    q = p.stepped h 1 := by
  unfold Adjacent at hadj
  rw [ext_iff]
  cases h <;> simp only [along, Heading.unit, stepped] at hlt ⊢ <;> omega

theorem stepped_zero (p : Position) (h : Heading) : p.stepped h 0 = p := by
  cases h <;> simp [stepped]

theorem stepped_stepped (p : Position) (h : Heading) (m n : Int) :
    (p.stepped h m).stepped h n = p.stepped h (m + n) := by
  rw [ext_iff]
  cases h <;> simp only [stepped, Heading.unit] <;> omega

theorem offset_other (p : Position) (h : Heading) (t : Turn) (m n : Int) :
    p.offset h t.other m n = p.offset h t m (-n) := by
  rw [ext_iff]
  cases h <;> cases t <;>
    simp only [offset, stepped, Heading.turned, Heading.clockwise, Heading.unit, Turn.other] <;> omega

theorem offset_turned (p : Position) (h : Heading) (t : Turn) (m n : Int) :
    p.offset (h.turned t) t.other m n = p.offset h t n m := by
  rw [ext_iff]
  cases h <;> cases t <;>
    simp only [offset, stepped, Heading.turned, Heading.clockwise, Heading.unit, Turn.other] <;> omega

theorem offset_opposite (p : Position) (h : Heading) (t : Turn) (m n : Int) :
    p.offset h.opposite t.other m n = p.offset h t (-m) n := by
  rw [ext_iff]
  cases h <;> cases t <;>
    simp only [offset, stepped, Heading.turned, Heading.opposite, Heading.clockwise, Heading.unit, Turn.other] <;>
    omega

theorem along_turned_stepped (p : Position) (h : Heading) (t : Turn) (steps : Int) :
    (p.stepped h steps).along (h.turned t) = p.along (h.turned t) := by
  cases h <;> cases t <;> simp only [along, stepped, Heading.turned, Heading.clockwise, Heading.unit] <;> omega

theorem along_stepped_turned (p : Position) (h : Heading) (t : Turn) (steps : Int) :
    (p.stepped (h.turned t) steps).along h = p.along h := by
  cases h <;> cases t <;> simp only [along, stepped, Heading.turned, Heading.clockwise, Heading.unit] <;> omega

theorem along_offset (p : Position) (h : Heading) (t : Turn) (m n : Int) :
    (p.offset h t m n).along h = p.along h + m := by
  rw [offset, along_stepped_turned, along_stepped]

theorem along_turned_offset (p : Position) (h : Heading) (t : Turn) (m n : Int) :
    (p.offset h t m n).along (h.turned t) = p.along (h.turned t) + n := by
  rw [offset, along_stepped, along_turned_stepped]

/-- A cell is given by how far it lies along a heading and to a side of it. -/
theorem eq_of_along {p q : Position} (h : Heading) (t : Turn) (hahead : p.along h = q.along h)
    (haside : p.along (h.turned t) = q.along (h.turned t)) : p = q := by
  rw [ext_iff]
  cases h <;> cases t <;> simp only [along, Heading.turned, Heading.clockwise, Heading.unit] at hahead haside <;>
    omega

theorem amid_neg {a b c : Int} : Amid (-a) (-b) (-c) ↔ Amid a b c := by
  unfold Amid
  omega

/-- The rectangle between two corners, measured along a heading and to a side of it. -/
theorem between_iff {c p q : Position} (h : Heading) (t : Turn) :
    c.Between p q ↔ Amid (p.along h) (q.along h) (c.along h) ∧
      Amid (p.along (h.turned t)) (q.along (h.turned t)) (c.along (h.turned t)) := by
  cases h <;> cases t <;> simp [Between, along, Heading.turned, Heading.clockwise, Heading.unit, amid_neg, and_comm]

end Position

end CodelCurve
