import CodelCurve.Proofs.Curve.Plane
import CodelCurve.Proofs.Machine.Pass
import Mathlib.Tactic.Ring
import Mathlib.Tactic.Linarith

/-! What instructions do to a state, in closed form: the primitives that formulas and U-turns are made of, the filler
and the two U-turns. An operator computes on the stack or stops the machine, a filler of up to 127 codels moves ahead,
and a U-turn turns back on a parallel line. -/

namespace CodelCurve

namespace Operator

/-- What the machine makes of an operator and its operands. -/
def compute (operator : Operator) (a b : Int) : Except Fault Int :=
  if operator = divide ∧ b = 0 then .error .divisionByZero else Op.fitting operator.op (operator.eval? a b)

theorem compute_of_eval? {operator : Operator} {a b c : Int} (h : operator.eval? a b = some c) :
    operator.compute a b = .ok c := by
  have hdefined : ¬ (operator = divide ∧ b = 0) := by
    rintro ⟨rfl, rfl⟩
    cases h
  rw [compute, if_neg hdefined, h]
  rfl

theorem compute_add_of_le {a b : Int} (hnonneg : 0 ≤ a + b) (hle : a + b ≤ Word.greatest) :
    add.compute a b = .ok (a + b) := by
  have hleast : Word.least ≤ 0 := by decide
  exact compute_of_eval? (Word.check_eq_some_iff.mpr ⟨⟨Int.le_trans hleast hnonneg, hle⟩, rfl⟩)

theorem compute_add_of_gt {a b : Int} (hgt : Word.greatest < a + b) : add.compute a b = .error (.overflow .add) := by
  have hnone : add.eval? a b = none := Word.check_eq_none_iff.mpr fun hfits => Int.not_le.mpr hgt hfits.2
  rw [compute, if_neg (by simp), hnone]
  rfl

theorem perform_op (operator : Operator) (s : State) :
    operator.op.perform s = s.combine operator.op operator.compute := by
  cases operator with
  | add => rfl
  | subtract => rfl
  | multiply => rfl
  | divide =>
      have hcompute : divide.compute = fun a b =>
          if b = 0 then .error .divisionByZero else Op.fitting .divide (Word.check (Op.quotient a b)) := by
        funext a b
        by_cases hb : b = 0
        · rw [compute, if_pos ⟨rfl, hb⟩, if_pos hb]
        · rw [compute, if_neg fun h => hb h.2, if_neg hb, eval?, Word.floorDiv?_eq, if_neg hb, Op.quotient_eq_fdiv a hb]
          rfl
      rw [hcompute]
      rfl

end Operator

theorem charOfCode?_toNat (c : Char) : charOfCode? (c.toNat : Int) = some c := by
  have haux : ∀ (n : Nat) (hn : n.isValidChar), n = c.toNat → Char.ofNatAux n hn = c := by
    rintro n hn rfl
    have hround := Char.ofNat_toNat c
    rwa [Char.ofNat, dif_pos hn] at hround
  have hvalid : 0 ≤ (c.toNat : Int) ∧ (c.toNat : Int).toNat.isValidChar := ⟨Int.natCast_nonneg _, c.valid⟩
  rw [charOfCode?, dif_pos hvalid, haux _ _ (Int.toNat_natCast _)]

namespace Op

variable {stack : List Int} {block a b : Int} {p : Position} {h : Heading} {out : String}

theorem apply_push (hblock : 0 < block) :
    push.apply ⟨stack, block, p, h, out⟩ = .ok ⟨block :: stack, 1, p.stepped h 1, h, out⟩ := by
  have hpositive : ¬ block ≤ 0 := by omega
  simp only [apply, perform, if_neg hpositive]
  rfl

theorem apply_pop :
    pop.apply ⟨a :: stack, block, p, h, out⟩ = .ok ⟨stack, 1, p.stepped h 1, h, out⟩ := rfl

theorem apply_duplicate :
    duplicate.apply ⟨a :: stack, block, p, h, out⟩ = .ok ⟨a :: a :: stack, 1, p.stepped h 1, h, out⟩ := rfl

/-- An operator replaces its operands by its result, or stops the machine. -/
theorem apply_operator_eq (operator : Operator) :
    operator.op.apply ⟨b :: a :: stack, block, p, h, out⟩ =
      (operator.compute a b).map fun c => ⟨c :: stack, 1, p.stepped h 1, h, out⟩ := by
  have hop : operator.op ≠ extend := by cases operator <;> decide
  rw [apply, Operator.perform_op]
  simp only [State.combine, if_neg hop]
  cases operator.compute a b <;> rfl

theorem apply_outChar {c : Char} :
    outChar.apply ⟨(c.toNat : Int) :: stack, block, p, h, out⟩ =
      .ok ⟨stack, 1, p.stepped h 1, h, out.push c⟩ := by
  simp only [apply, perform, State.withTop, charOfCode?_toNat]
  rfl

end Op

namespace Instruction

variable {stack : List Int} {block a : Int} {p : Position} {h : Heading} {out : String}

theorem running_step (level : Nat) (o : Op) (s : State) : running.step level o s = o.apply s := rfl

theorem running_extends (level n : Nat) :
    running.ops level (List.replicate n .extend) ⟨stack, block, p, h, out⟩ =
      .ok ⟨stack, block + n, p.stepped h n, h, out⟩ := by
  induction n generalizing block p with
  | zero =>
      rw [Int.natCast_zero, Int.add_zero, Position.stepped_zero]
      rfl
  | succ n ih =>
      have hstep : running.ops level (List.replicate (n + 1) .extend) ⟨stack, block, p, h, out⟩ =
          running.ops level (List.replicate n .extend) ⟨stack, block + 1, p.stepped h 1, h, out⟩ := rfl
      rw [hstep, ih, Position.stepped_stepped, Int.natCast_succ]
      congr 2
      · ring
      · ring_nf

theorem running_resize (level : Nat) (length : Length) :
    running.resize level length ⟨stack, 1, p, h, out⟩ =
      .ok ⟨stack, length.codels, p.stepped h (length.codels - 1), h, out⟩ := by
  have htwo := length.two_le
  have hcodels : ((length.codels - 1 : Nat) : Int) = length.codels - 1 := by omega
  have henter : running.resize level length ⟨stack, 1, p, h, out⟩ =
      running.times (level + 1) .extend (length.codels - 1) ⟨stack, 1, p, h, out⟩ := rfl
  rw [henter, Pass.times_eq_ops, running_extends, hcodels]
  congr 2
  ring

theorem running_doublings_succ (level n : Nat) :
    running.ops level (doublings (n + 1)) ⟨a :: stack, block, p, h, out⟩ =
      (Operator.add.compute a a >>= fun c =>
        running.ops level (doublings n) ⟨c :: stack, 1, (p.stepped h 1).stepped h 1, h, out⟩) := by
  show (Op.duplicate.apply _ >>= fun s => Op.add.apply s >>= fun s => running.ops level (doublings n) s) = _
  rw [Op.apply_duplicate, ok_bind]
  show (Operator.add.op.apply _ >>= _) = _
  rw [Op.apply_operator_eq]
  cases Operator.add.compute a a <;> rfl

/-- Doublings multiply the top of the stack by a power of two, which has to fit. -/
theorem running_doublings (level n : Nat) (ha : 1 ≤ a) (hfits : 2 ^ n * a ≤ Word.greatest) :
    running.ops level (doublings n) ⟨a :: stack, block, p, h, out⟩ =
      .ok ⟨2 ^ n * a :: stack, if n = 0 then block else 1, p.stepped h (2 * n), h, out⟩ := by
  induction n generalizing a block p with
  | zero =>
      rw [Int.natCast_zero, Int.mul_zero, Position.stepped_zero, Int.pow_zero, Int.one_mul, if_pos rfl]
      rfl
  | succ n ih =>
      have hpower : (1 : Int) ≤ 2 ^ n := Int.pow_pos (by decide)
      have hdouble : 2 ^ n * (a + a) = 2 ^ (n + 1) * a := by ring
      have hsum : Operator.add.compute a a = .ok (a + a) :=
        Operator.compute_add_of_le (by omega) (by nlinarith)
      rw [running_doublings_succ, hsum, ok_bind, ih (by omega) (by rw [hdouble]; exact hfits), hdouble,
        Position.stepped_stepped, Position.stepped_stepped, if_neg (Nat.succ_ne_zero n), ite_self]
      push_cast
      ring_nf

/-- Where the power of two does not fit, one of the doublings stops the machine. -/
theorem running_doublings_overflow (level n : Nat) (ha : 1 ≤ a) (hfits : a ≤ Word.greatest)
    (hover : Word.greatest < 2 ^ n * a) :
    running.ops level (doublings n) ⟨a :: stack, block, p, h, out⟩ = .error (.overflow .add) := by
  induction n generalizing a block p with
  | zero =>
      rw [Int.pow_zero, Int.one_mul] at hover
      omega
  | succ n ih =>
      have hdouble : 2 ^ n * (a + a) = 2 ^ (n + 1) * a := by ring
      rw [running_doublings_succ]
      by_cases hsum : a + a ≤ Word.greatest
      · rw [Operator.compute_add_of_le (by omega) hsum, ok_bind]
        exact ih (by omega) hsum (by rw [hdouble]; exact hover)
      · rw [Operator.compute_add_of_gt (by omega)]
        rfl

/-- A filler pushes a one, and doubles it before it takes it away again. -/
theorem running_noOp_eq (level : Nat) (length : Length) :
    running.instruction level (noOp length) ⟨stack, 1, p, h, out⟩ =
      (running.ops (level + 1) (doublings (length.codels / 2 - 1))
        ⟨1 :: stack, 1 + (length.codels % 2 : Nat), p.stepped h (1 + (length.codels % 2 : Nat)), h, out⟩ >>=
          running.step (level + 1) .pop) := by
  have hpush : running.instruction level (noOp length) ⟨stack, 1, p, h, out⟩ =
      if length.codels % 2 = 1 then
        running.resize (level + 1) .two ⟨1 :: stack, 1, p.stepped h 1, h, out⟩ >>= fun s =>
          running.ops (level + 1) (doublings (length.codels / 2 - 1)) s >>= running.step (level + 1) .pop
      else
        running.ops (level + 1) (doublings (length.codels / 2 - 1)) ⟨1 :: stack, 1, p.stepped h 1, h, out⟩ >>=
          running.step (level + 1) .pop := rfl
  rw [hpush]
  by_cases hodd : length.codels % 2 = 1
  · rw [if_pos hodd, running_resize, ok_bind, Position.stepped_stepped, hodd]
    rfl
  · have heven : length.codels % 2 = 0 := by omega
    rw [if_neg hodd, heven]
    rfl

/-- A filler of a length up to 127 only moves ahead. -/
theorem running_noOp (level : Nat) {length : Length} (hlength : length.codels ≤ 127) :
    running.instruction level (noOp length) ⟨stack, 1, p, h, out⟩ =
      .ok ⟨stack, 1, p.stepped h length.codels, h, out⟩ := by
  have htwo := length.two_le
  have hfits : (2 : Int) ^ (length.codels / 2 - 1) * 1 ≤ Word.greatest := by
    have hle : (2 : Int) ^ (length.codels / 2 - 1) ≤ 2 ^ 62 := by
      refine pow_le_pow_right₀ (by decide) ?_
      omega
    unfold Word.greatest
    omega
  rw [running_noOp_eq, running_doublings (level + 1) _ (by decide) hfits, ok_bind, running_step, Op.apply_pop,
    Position.stepped_stepped, Position.stepped_stepped]
  congr 3
  omega

/-- In a longer filler the doublings go beyond what a word holds. -/
theorem running_noOp_overflow (level : Nat) {length : Length} (hlength : 128 ≤ length.codels) :
    running.instruction level (noOp length) ⟨stack, 1, p, h, out⟩ = .error (.overflow .add) := by
  have hover : Word.greatest < (2 : Int) ^ (length.codels / 2 - 1) * 1 := by
    have hle : (2 : Int) ^ 63 ≤ 2 ^ (length.codels / 2 - 1) := by
      refine pow_le_pow_right₀ (by decide) ?_
      omega
    unfold Word.greatest
    omega
  rw [running_noOp_eq, running_doublings_overflow (level + 1) _ (by decide) (by decide) hover]
  rfl

/-- Every length from two on makes a filler. It only moves ahead over its length when that is at most 127, and stops the
machine by an overflow when it is longer. -/
theorem apply_filler {n : Int} (hn : 2 ≤ n) :
    ∃ i, ofNoOp n = .ok i ∧ ∀ s : State, s.block = 1 →
      i.apply s = if n ≤ 127 then .ok (s.advance n) else .error (.overflow .add) := by
  have hcodels : (n.toNat : Int) = n := Int.toNat_of_nonneg (by omega)
  refine ⟨noOp ⟨n.toNat, by omega⟩, ?_, ?_⟩
  · rw [ofNoOp, Length.ofInt?, dif_pos hn]
  · rintro ⟨stack, block, p, h, out⟩ rfl
    split
    next hshort =>
      have hfiller : apply (noOp ⟨n.toNat, by omega⟩) ⟨stack, 1, p, h, out⟩ =
          .ok ⟨stack, 1, p.stepped h n.toNat, h, out⟩ := running_noOp 0 (by show n.toNat ≤ 127; omega)
      rw [hfiller, hcodels]
      rfl
    next hlong => exact running_noOp_overflow 0 (by show 128 ≤ n.toNat; omega)

theorem apply_filler_127 : (2 : Int) ≤ 127 ∧ ∃ i, ofNoOp 127 = .ok i ∧
    i.apply ⟨[3, 20, 2], 1, ⟨5, 6⟩, .south, "A"⟩ = .ok ⟨[3, 20, 2], 1, ⟨5, 133⟩, .south, "A"⟩ := by
  obtain ⟨i, hfiller, happly⟩ := apply_filler (n := 127) (by decide)
  exact ⟨by decide, i, hfiller, happly _ rfl⟩

/-- A filler that can be built and does not get through. -/
theorem filler_128_overflows : ∃ i, ofNoOp 128 = .ok i ∧
    i.apply ⟨[], 1, .origin, .east, ""⟩ = .error (.overflow .add) :=
  ⟨noOp ⟨128, by decide⟩, rfl, rfl⟩

/-- A U-turn leads three codels past its set-up, turns twice to its side and keeps all else. -/
theorem running_uTurn (level : Nat) (turn : Turn) :
    running.instruction level (uTurn turn) ⟨stack, 1, p, h, out⟩ =
      .ok ⟨stack, 1, ((p.stepped h ((uTurn turn).size - 3)).stepped (h.turned turn) 2).stepped h.opposite 1,
        h.opposite, out⟩ := by
  have hpivot : ∀ (k : Int) (q : Position), 0 < k →
      running.ops (level + 1) pivot ⟨stack, k, q, h, out⟩ = .ok ⟨stack, 1,
        ((((((q.stepped h 1).stepped h 1).stepped h 1).stepped (h.rotated k) 1).stepped (h.rotated k) 1).stepped
          ((h.rotated k).rotated k) 1), (h.rotated k).rotated k, out⟩ := by
    intro k q hk
    show (Op.push.apply _ >>= _) = _
    rw [Op.apply_push hk]
    rfl
  cases turn with
  | clockwise =>
      have hturn : running.instruction level (uTurn .clockwise) ⟨stack, 1, p, h, out⟩ =
          running.ops (level + 1) pivot ⟨stack, 1, p, h, out⟩ := rfl
      rw [hturn, hpivot 1 p (by decide)]
      simp only [Heading.rotated_one, Position.stepped_stepped, Heading.turned_turned]
      rfl
  | anticlockwise =>
      have hturn : running.instruction level (uTurn .anticlockwise) ⟨stack, 1, p, h, out⟩ =
          running.resize (level + 1) .three ⟨stack, 1, p, h, out⟩ >>= running.ops (level + 1) pivot := rfl
      rw [hturn, running_resize, ok_bind, hpivot _ _ (by decide)]
      have hthree : (Length.three.codels : Int) = 3 := rfl
      simp only [hthree, Heading.rotated_three, Position.stepped_stepped, Heading.turned_turned]
      rfl

end Instruction

end CodelCurve
