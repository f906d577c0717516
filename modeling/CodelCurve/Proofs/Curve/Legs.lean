import CodelCurve.Proofs.Curve.Course
import Mathlib.Tactic.Ring

/-! The legs of a curve, which are its runs up to a corner. In each order a bend has the corners of nine bends of the
order below and one more to each side, so both sides come equally often. A long leg before a clockwise corner arises
wherever a clockwise bend is joined straight on, which happens anew in every order. -/

namespace CodelCurve

theorem Turn.other_eq_of_ne {t u : Turn} (h : t ≠ u) : t.other = u := by
  cases t <;> cases u
  · exact absurd rfl h
  · rfl
  · rfl
  · exact absurd rfl h

namespace Curve

namespace Course

/-- The runs before the last, each with the side of the corner that it leads up to. -/
def legs : Course → List (Nat × Turn)
  | last _ => []
  | bend run turn rest => (run, turn) :: rest.legs

/-- The sides of the corners. -/
def turns (c : Course) : List Turn := c.legs.map Prod.snd

/-- The course with steps put before its first run. -/
def lengthen (steps : Nat) : Course → Course
  | last run => last (steps + run)
  | bend run turn rest => bend (steps + run) turn rest

theorem turns_lengthen (steps : Nat) (c : Course) : (c.lengthen steps).turns = c.turns := by
  cases c <;> rfl

theorem legs_around (turn : Turn) (c d : Course) :
    (c.around turn d).legs = c.legs ++ (c.lastRun, turn) :: d.legs := by
  induction c with
  | last run => rfl
  | bend run side rest ih => simp [around, legs, lastRun, ih]

theorem legs_straightOn (between : Nat) (c d : Course) :
    (c.straightOn between d).legs = c.legs ++ (d.lengthen (c.lastRun + between)).legs := by
  induction c with
  | last run => cases d <;> rfl
  | bend run turn rest ih => simp [straightOn, legs, lastRun, ih]

theorem turns_around (turn : Turn) (c d : Course) : (c.around turn d).turns = c.turns ++ turn :: d.turns := by
  simp [turns, legs_around]

theorem turns_straightOn (between : Nat) (c d : Course) :
    (c.straightOn between d).turns = c.turns ++ d.turns := by
  rw [turns, legs_straightOn, List.map_append]
  exact congrArg _ (turns_lengthen _ d)

theorem turns_row (between : Nat) (near far : Course) :
    (row between near far).turns = near.turns ++ far.turns ++ near.turns := by
  rw [row, turns_straightOn, turns_straightOn]

theorem turns_stack (turn : Turn) (outer middle : Course) :
    (stack turn outer middle).turns =
      outer.turns ++ turn :: middle.turns ++ turn.other :: outer.turns := by
  rw [stack, turns_around, turns_around]

/-- The legs are the runs but the last. -/
theorem map_fst_legs (c : Course) : c.legs.map Prod.fst ++ [c.lastRun] = c.runs := by
  induction c with
  | last run => rfl
  | bend run turn rest ih => simp [legs, lastRun, runs, ih]

end Course

open Course

/-- Both sides come equally often among the corners of a bend. -/
theorem count_turns_bend (start between n : Nat) (turn side : Turn) :
    8 * (bend start between n turn).turns.count side + 1 = 9 ^ n := by
  induction n generalizing turn with
  | zero => rfl
  | succ n ih =>
      have hnear := ih turn
      have hfar := ih turn.other
      have hboth : [turn].count side + [turn.other].count side = 1 := by
        cases turn <;> cases side <;> rfl
      have hcount : (bend start between (n + 1) turn).turns.count side =
          5 * (bend start between n turn).turns.count side +
            4 * (bend start between n turn.other).turns.count side + 1 := by
        change (stack turn (row between _ _) (row between _ _)).turns.count side = _
        rw [← hboth, turns_stack, turns_row, turns_row]
        simp only [List.count_append, List.count_cons, List.count_nil]
        omega
      calc
        _ = 9 * (8 * (bend start between n turn).turns.count side + 1) := by omega
        _ = 9 ^ (n + 1) := by rw [hnear, Nat.pow_succ, Nat.mul_comm]

/-! ### Long legs -/

namespace Regular

variable {turn side : Turn} {near far : Course}

theorem legs_row (hnear : Regular turn near) (hfar : Regular side far) :
    (Course.row 3 near far).legs = near.legs ++ (far.lengthen 15).legs ++ (near.lengthen 15).legs := by
  rw [Course.row, legs_straightOn, legs_straightOn, lastRun_straightOn 3 near hfar.turns, hnear.last, hfar.last]

/-- A course that is joined straight on to another begins with a long leg. -/
theorem count_lengthen (hnear : Regular turn near) :
    (near.lengthen 15).legs.count (27, turn) = near.legs.count (27, turn) + 1 := by
  cases near with
  | last run => cases hnear.turns
  | bend run first rest =>
      obtain rfl : run = 12 := hnear.first
      obtain rfl : first = turn := Option.some.inj hnear.turns
      simp [lengthen, legs]

theorem lt_count_row (hnear : Regular turn near) (hfar : Regular turn.other far) (n : Nat)
    (hn : n ≤ near.legs.count (27, side)) (hn' : n ≤ far.legs.count (27, side)) :
    n < (Course.row 3 near far).legs.count (27, side) := by
  rw [hnear.legs_row hfar, List.count_append, List.count_append]
  by_cases hside : turn = side
  · subst hside
    have hlong := hnear.count_lengthen
    omega
  · obtain rfl : turn.other = side := Turn.other_eq_of_ne hside
    have hlong := hfar.count_lengthen
    omega

end Regular

theorem le_count_long_legs (n : Nat) (turn side : Turn) :
    n ≤ (bend 2 3 (n + 1) turn).legs.count (27, side) := by
  induction n generalizing turn with
  | zero => exact Nat.zero_le _
  | succ n ih =>
      have hrow := (regular_bend n turn).lt_count_row (regular_bend n turn.other) n (ih turn) (ih turn.other)
      change n < (stack turn (row 3 _ _) (row 3 _ _)).legs.count (27, side)
      rw [stack, legs_around, legs_around, List.count_append, List.count_append]
      omega

end Curve

end CodelCurve
