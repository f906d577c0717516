import CodelCurve.Proofs.Curve.Legs
import CodelCurve.Proofs.Layout.Segments

/-! The segments of each curve. After its first cell a curve is read as a slot and a turn for each of its legs, and a
slot for its last run. The legs have 12 or 27 steps, less those of the set-up, so the capacity of a slot depends on the
turn after it; only the first cell, which no slot holds, makes the first slot an exception. -/

namespace CodelCurve

namespace Layout

open Curve (Course Regular)

namespace Token

/-- Slots of given capacities, each with a turn after it, and a last slot. -/
def alternating (legs : List (Int × Turn)) (last : Int) : List Token :=
  legs.flatMap (fun leg => [slot leg.1, turn leg.2]) ++ [slot last]

/-- The slot of a leg, which leaves room for the set-up of the turn. -/
def ofLeg (leg : Nat × Turn) : Int × Turn := (((leg.1 - leg.2.setup : Nat) : Int), leg.2)

/-- The capacities of the slots before a turn, which legs of 12 and of 27 steps have. -/
def capacities : Turn → List Int
  | .clockwise => [9, 24]
  | .anticlockwise => [7, 22]

@[simp] theorem alternating_cons (leg : Int × Turn) (legs : List (Int × Turn)) (last : Int) :
    alternating (leg :: legs) last = slot leg.1 :: turn leg.2 :: alternating legs last := rfl

theorem ofCourse_eq_alternating (c : Course) : ofCourse c = alternating (c.legs.map ofLeg) c.lastRun := by
  induction c with
  | last run => rfl
  | bend run t rest ih => simp [ofCourse, ih, Course.legs, Course.lastRun, ofLeg]

theorem count_turn_alternating (legs : List (Int × Turn)) (last : Int) (t : Turn) :
    (alternating legs last).count (turn t) = (legs.map Prod.snd).count t := by
  induction legs with
  | nil => simp [alternating]
  | cons leg legs ih => simp [List.count_cons, ih]

theorem count_le_count_alternating (legs : List (Int × Turn)) (last capacity : Int) :
    (legs.map Prod.fst).count capacity ≤ (alternating legs last).count (slot capacity) := by
  induction legs with
  | nil => exact Nat.zero_le _
  | cons leg legs ih => simpa [List.count_cons] using ih

theorem ofLeg_mem_capacities {leg : Nat × Turn} (h : leg.1 = 12 ∨ leg.1 = 27) :
    (ofLeg leg).1 ∈ capacities (ofLeg leg).2 := by
  obtain ⟨run, t⟩ := leg
  obtain rfl | rfl : run = 12 ∨ run = 27 := h
  · cases t <;> decide
  · cases t <;> decide

theorem bounds_of_mem_capacities {t : Turn} {capacity : Int} (h : capacity ∈ capacities t) :
    7 ≤ capacity ∧ capacity ≤ 24 := by
  cases t <;> simp only [capacities, List.mem_cons, List.not_mem_nil, or_false] at h <;> omega

theorem mem_alternating {legs : List (Int × Turn)} {last capacity : Int} (h : slot capacity ∈ alternating legs last) :
    capacity = last ∨ ∃ leg ∈ legs, leg.1 = capacity := by
  induction legs with
  | nil => simpa [alternating] using h
  | cons leg legs ih =>
      simp only [alternating_cons, List.mem_cons, slot.injEq, reduceCtorEq, false_or] at h
      rcases h with rfl | h
      · exact .inr ⟨leg, List.mem_cons_self, rfl⟩
      · exact (ih h).imp id fun ⟨leg, hleg, heq⟩ => ⟨leg, List.mem_cons_of_mem _ hleg, heq⟩

/-- The segments of the curves from the first order on, by the legs of the curve. -/
theorem tokenize_generate_legs (n : Nat) : ∃ legs : List (Nat × Turn),
    (Curve.bend 2 3 (n + 1) .clockwise).legs = (12, .clockwise) :: legs ∧
    (∀ leg ∈ legs, (ofLeg leg).1 ∈ capacities (ofLeg leg).2) ∧
    tokenize (Curve.generate (n + 1)) = .ok (start :: alternating ((8, .clockwise) :: legs.map ofLeg) 12) := by
  obtain ⟨hturn, hfirst, hlast, hruns⟩ := Curve.regular_bend n .clockwise
  have hcurve := Curve.generate_succ n
  cases hc : Curve.bend 2 3 (n + 1) .clockwise with
  | last run =>
      rw [hc] at hturn
      cases hturn
  | bend run t rest =>
      rw [hc] at hturn hfirst hlast hruns hcurve
      obtain rfl : run = 12 := hfirst
      obtain rfl : t = .clockwise := Option.some.inj hturn
      have hrest : ∀ run ∈ rest.runs, run = 12 ∨ run = 27 := fun run hrun => hruns run (List.mem_cons_of_mem _ hrun)
      refine ⟨rest.legs, rfl, ?_, ?_⟩
      · intro leg hleg
        apply ofLeg_mem_capacities
        apply hrest
        rw [← Course.map_fst_legs]
        exact List.mem_append_left _ (List.mem_map_of_mem hleg)
      · -- The first cell is the step that the first leg loses.
        have hpath : Curve.generate (n + 1) = 'F' :: (Course.bend 11 .clockwise rest).path := hcurve
        have hlong : ∀ run ∈ (Course.bend 11 .clockwise rest).runs, 7 ≤ run := by
          intro run hrun
          obtain rfl | hrun := List.mem_cons.mp hrun
          · decide
          · have hlength := hrest run hrun
            omega
        have hend : rest.lastRun = 12 := hlast
        rw [hpath, tokenize_course hlong, ofCourse_eq_alternating]
        simp [Course.legs, Course.lastRun, ofLeg, Turn.setup, hend]

/-- Every curve can be read. Its slots have from 7 to 24 codels, and those of 24 become more with every order. -/
theorem tokenize_generate_slots (order : Nat) : ∃ ts, tokenize (Curve.generate order) = .ok ts ∧
    (∀ capacity, slot capacity ∈ ts → 7 ≤ capacity ∧ capacity ≤ 24) ∧ order ≤ ts.count (slot 24) + 1 := by
  cases order with
  | zero => exact ⟨[start], rfl, fun capacity h => by simp at h, Nat.zero_le _⟩
  | succ n =>
      obtain ⟨legs, hlegs, hcapacities, htokens⟩ := tokenize_generate_legs n
      refine ⟨_, htokens, ?_, ?_⟩
      · intro capacity hcapacity
        rw [List.mem_cons] at hcapacity
        rcases hcapacity with hstart | hcapacity
        · cases hstart
        · rcases mem_alternating hcapacity with rfl | ⟨leg, hleg, rfl⟩
          · decide
          · rcases List.mem_cons.mp hleg with rfl | hleg
            · decide
            · obtain ⟨leg, hmem, rfl⟩ := List.mem_map.mp hleg
              exact bounds_of_mem_capacities (hcapacities leg hmem)
      · -- A leg of 27 steps before a clockwise turn is a slot of 24 codels.
        have hwide : legs.count (27, .clockwise) ≤ ((legs.map ofLeg).map Prod.fst).count 24 := by
          have hleg : (Prod.fst ∘ ofLeg) (27, .clockwise) = 24 := rfl
          rw [List.map_map, ← hleg]
          exact List.count_le_count_map
        have hslots := count_le_count_alternating ((8, .clockwise) :: legs.map ofLeg) 12 24
        have hmany := Curve.le_count_long_legs n .clockwise .clockwise
        rw [hlegs, List.count_cons_of_ne (by decide)] at hmany
        rw [List.map_cons, List.count_cons_of_ne (by decide)] at hslots
        rw [List.count_cons_of_ne (by decide)]
        omega

/-- Every curve from the first order on is read as its start and then slots and turns by turns. The first slot has 8
codels and the last has 12, and all others have one of two capacities for the turn that follows. There are equally
many turns to both sides. -/
theorem tokenize_generate_alternating (n : Nat) : ∃ legs : List (Int × Turn),
    tokenize (Curve.generate (n + 1)) = .ok (start :: alternating ((8, .clockwise) :: legs) 12) ∧
    (∀ leg ∈ legs, leg.1 ∈ capacities leg.2) ∧
    ∀ t, (start :: alternating ((8, .clockwise) :: legs) 12).count (turn t) = (9 ^ (n + 1) - 1) / 8 := by
  obtain ⟨legs, hlegs, hcapacities, htokens⟩ := tokenize_generate_legs n
  refine ⟨legs.map ofLeg, htokens, ?_, ?_⟩
  · intro leg hleg
    obtain ⟨leg, hmem, rfl⟩ := List.mem_map.mp hleg
    exact hcapacities leg hmem
  · intro t
    have hturns : ((8, .clockwise) :: legs.map ofLeg).map Prod.snd = (Curve.bend 2 3 (n + 1) .clockwise).turns := by
      simp [Course.turns, hlegs, ofLeg, Function.comp_def]
    have hcount := Curve.count_turns_bend 2 3 (n + 1) .clockwise t
    rw [List.count_cons_of_ne (by simp), count_turn_alternating, hturns]
    omega

end Token

end Layout

end CodelCurve
