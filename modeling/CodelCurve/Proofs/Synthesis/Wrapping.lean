import CodelCurve.Proofs.Layout.Escalation
import CodelCurve.Proofs.Synthesis.Blocks

/-! Total shifts that wrap around. The program of the empty text is made of fillers and U-turns alone, so before each leg
of its curve it has reached a hue that is a sum over the legs so far, and over the legs of a bend these sums follow the
nine-fold joining of bends. On the curve of order nine the sum comes to two below the bound of 32 bits in the middle of
a filler. The duplication there, which shifts by four, takes the total around to a number that has the same remainder
modulo six. So the colour is kept, and in the picture the block just left is larger than the state has it. -/

namespace CodelCurve

open Curve (Course Regular bend regular_bend)

namespace Layout

/-! ### The program of the empty text -/

/-- The primitives along a leg when no units are waiting. -/
def idleOps (leg : Int × Turn) : List Op :=
  (filling leg.1 ++ [Instruction.uTurn leg.2]).flatMap Instruction.expand

end Layout

open Layout (Token attempt fit idleOps)

/-- The hue that is added along legs when no units are waiting. -/
def hueAlong (legs : List (Nat × Turn)) : Int :=
  Op.reach Shift.hue (legs.flatMap fun leg => idleOps (Token.ofLeg leg))

theorem hueAlong_append (legs rest : List (Nat × Turn)) : hueAlong (legs ++ rest) = hueAlong legs + hueAlong rest := by
  rw [hueAlong, List.flatMap_append, Op.reach_append]
  rfl

theorem hueAlong_cons (leg : Nat × Turn) (legs : List (Nat × Turn)) :
    hueAlong (leg :: legs) = hueAlong [leg] + hueAlong legs := hueAlong_append [leg] legs

/-- The hue that is added along a short leg. -/
def cornerHue : Turn → Int
  | .clockwise => 29
  | .anticlockwise => 24

theorem hueAlong_short (turn : Turn) : hueAlong [(12, turn)] = cornerHue turn := by
  cases turn <;> decide

theorem hueAlong_long (turn : Turn) : hueAlong [(27, turn)] = cornerHue turn + 40 := by
  cases turn <;> decide

/-- The hue that is added along the legs of a bend, by its order less one. -/
def bendHue : Nat → Int
  | 0 => 53
  | n + 1 => 9 * bendHue n + 293

theorem hueAlong_lengthen {turn : Turn} {c : Course} (h : Regular turn c) :
    hueAlong (c.lengthen 15).legs = hueAlong c.legs + 40 := by
  cases c with
  | last run => cases h.turns
  | bend run first rest =>
      obtain rfl : run = 12 := h.first
      rw [Course.lengthen, Course.legs, Course.legs, hueAlong_cons, hueAlong_cons (12, first), hueAlong_short,
        hueAlong_long]
      omega

/-- The legs of a row of three bends, of which the one in the middle bends to the other side. -/
def rowLegs (n : Nat) (turn : Turn) : List (Nat × Turn) :=
  (Course.row 3 (bend 2 3 (n + 1) turn) (bend 2 3 (n + 1) turn.other)).legs

theorem rowLegs_eq (n : Nat) (turn : Turn) : rowLegs n turn = (bend 2 3 (n + 1) turn).legs ++
    ((bend 2 3 (n + 1) turn.other).lengthen 15).legs ++ ((bend 2 3 (n + 1) turn).lengthen 15).legs :=
  (regular_bend n turn).legs_row (regular_bend n turn.other)

/-- The legs of a bend are those of three rows and the corners between them. -/
theorem legs_bend (n : Nat) (turn : Turn) : (bend 2 3 (n + 2) turn).legs =
    rowLegs n turn ++ (12, turn) :: (rowLegs n turn.other ++ (12, turn.other) :: rowLegs n turn) := by
  have hnear := regular_bend n turn
  have hfar := regular_bend n turn.other
  rw [bend, Course.stack, Course.legs_around, Course.legs_around, Course.lastRun_around, (hnear.row hfar).last,
    (hfar.row hnear).last, List.append_assoc, List.cons_append, rowLegs, rowLegs, Turn.other_other]

theorem hueAlong_rowLegs_of_bend {n : Nat} (h : ∀ turn, hueAlong (bend 2 3 (n + 1) turn).legs = bendHue n)
    (turn : Turn) : hueAlong (rowLegs n turn) = 3 * bendHue n + 80 := by
  rw [rowLegs_eq, hueAlong_append, hueAlong_append, hueAlong_lengthen (regular_bend n turn),
    hueAlong_lengthen (regular_bend n turn.other), h, h]
  omega

theorem cornerHue_add_other (turn : Turn) : cornerHue turn + cornerHue turn.other = 53 := by
  cases turn <;> rfl

theorem hueAlong_bend (n : Nat) (turn : Turn) : hueAlong (bend 2 3 (n + 1) turn).legs = bendHue n := by
  induction n generalizing turn with
  | zero => cases turn <;> decide
  | succ n ih =>
      have hcorners := cornerHue_add_other turn
      rw [legs_bend, hueAlong_append, hueAlong_cons, hueAlong_append, hueAlong_cons (12, turn.other), hueAlong_short,
        hueAlong_short, hueAlong_rowLegs_of_bend ih, hueAlong_rowLegs_of_bend ih, bendHue]
      omega

theorem hueAlong_rowLegs (n : Nat) (turn : Turn) : hueAlong (rowLegs n turn) = 3 * bendHue n + 80 :=
  hueAlong_rowLegs_of_bend (hueAlong_bend n) turn

/-! ### A hue before a short leg -/

/-- Along the legs, this much hue is added before one that is short and turns clockwise. -/
def HueBefore (legs : List (Nat × Turn)) (hue : Int) : Prop :=
  ∃ before after, legs = before ++ (12, .clockwise) :: after ∧ hueAlong before = hue

namespace HueBefore

variable {hue : Int} {legs : List (Nat × Turn)}

theorem append (h : HueBefore legs hue) (rest : List (Nat × Turn)) : HueBefore (legs ++ rest) hue := by
  obtain ⟨before, after, rfl, hhue⟩ := h
  exact ⟨before, after ++ rest, by simp, hhue⟩

theorem prepend (h : HueBefore legs hue) (front : List (Nat × Turn)) :
    HueBefore (front ++ legs) (hueAlong front + hue) := by
  obtain ⟨before, after, rfl, rfl⟩ := h
  exact ⟨front ++ before, after, by simp, hueAlong_append front before⟩

/-- Lengthening a course makes its first leg long, so the short one has to come later. -/
theorem lengthen {turn : Turn} {c : Course} (hc : Regular turn c) (h : HueBefore c.legs hue) (hhue : 0 < hue) :
    HueBefore (c.lengthen 15).legs (hue + 40) := by
  cases c with
  | last run => cases hc.turns
  | bend run first rest =>
      obtain rfl : run = 12 := hc.first
      obtain ⟨before, after, hlegs, rfl⟩ := h
      cases before with
      | nil => exact absurd hhue (by decide)
      | cons leg before =>
          obtain ⟨rfl, hrest⟩ := List.cons.inj hlegs
          refine ⟨(27, first) :: before, after, congrArg ((27, first) :: ·) hrest, ?_⟩
          rw [hueAlong_cons, hueAlong_cons (12, first), hueAlong_short, hueAlong_long]
          omega

variable {n : Nat} {turn : Turn} {total : Int}

/-- From the first row of a bend to the bend. -/
theorem top (h : HueBefore (rowLegs n turn) hue) : HueBefore (bend 2 3 (n + 2) turn).legs hue := by
  rw [legs_bend]
  exact h.append _

/-- From the row in the middle of a bend to the bend. -/
theorem middle (h : HueBefore (rowLegs n turn.other) hue)
    (htotal : total = 3 * bendHue n + 80 + cornerHue turn + hue) : HueBefore (bend 2 3 (n + 2) turn).legs total := by
  have hbefore := (h.append ((12, turn.other) :: rowLegs n turn)).prepend (rowLegs n turn ++ [(12, turn)])
  rw [hueAlong_append, hueAlong_rowLegs, hueAlong_short, List.append_assoc] at hbefore
  rw [htotal, legs_bend]
  exact hbefore

end HueBefore

end CodelCurve
