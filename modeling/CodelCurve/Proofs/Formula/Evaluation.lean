import CodelCurve.Proofs.Machine.Effect
import CodelCurve.Proofs.Machine.Size
import Mathlib.Algebra.Group.Idempotent

/-! Formulas on the machine. Running a formula leaves on the stack what `pushed` computes, or stops with its fault: a
number is the size of a block, which is never below one, and a power is a row of multiplications, each of which has to
fit. For a proper formula this is its value, and the fault is one of arithmetic. -/

namespace CodelCurve

namespace Word

/-- Powers of a number of magnitude at most one depend on the parity of the exponent alone. -/
theorem pow_eq_pow_parity {b : Int} (hb : b.natAbs ≤ 1) {e : Nat} (he : 2 ≤ e) : b ^ e = b ^ (2 + e % 2) := by
  have hsquare : IsIdempotentElem (b ^ 2) := by
    have hvalues : b = -1 ∨ b = 0 ∨ b = 1 := by omega
    rcases hvalues with rfl | rfl | rfl <;> rfl
  calc b ^ e = (b ^ 2) ^ (e / 2) * b ^ (e % 2) := by rw [← pow_mul, ← pow_add, Nat.div_add_mod]
    _ = b ^ 2 * b ^ (e % 2) := by rw [hsquare.pow_eq (by omega)]
    _ = b ^ (2 + e % 2) := (pow_add b 2 (e % 2)).symm

/-- A power is exact, and refused only where it does not fit. -/
theorem pow?_eq_check (b : Int) (e : Nat) : pow? b e = check (b ^ e) := by
  have hpow : ∀ n : Nat, Int.pow b n = b ^ n := fun _ => rfl
  rw [pow?, hpow, hpow]
  by_cases hsmall : e < 64
  · rw [if_pos hsmall]
  · rw [if_neg hsmall]
    by_cases hunit : b.natAbs ≤ 1
    · rw [if_pos hunit, ← pow_eq_pow_parity (e := e) hunit (by omega)]
    · rw [if_neg hunit, eq_comm, check_eq_none_iff]
      have hlarge : 2 ^ 64 ≤ (b ^ e).natAbs :=
        calc 2 ^ 64 ≤ 2 ^ e := Nat.pow_le_pow_right (by decide) (by omega)
          _ ≤ b.natAbs ^ e := Nat.pow_le_pow_left (by omega) e
          _ = (b ^ e).natAbs := (Int.natAbs_pow b e).symm
      unfold Fits least greatest
      omega

/-- Where a power fits, so does every lower one. -/
theorem fits_pow {b : Int} {e k : Nat} (h : Fits (b ^ e)) (hk : k ≤ e) : Fits (b ^ k) := by
  have hsmall : ∀ n : Int, n.natAbs ≤ 2 ^ 62 → Fits n := by
    intro n hn
    unfold Fits least greatest
    omega
  by_cases hunit : b.natAbs ≤ 1
  · apply hsmall
    rw [Int.natAbs_pow]
    exact (pow_le_one₀ (Nat.zero_le _) hunit).trans (by decide)
  · obtain rfl | hlt := Nat.eq_or_lt_of_le hk
    · exact h
    · apply hsmall
      have hbound : (b ^ e).natAbs ≤ 2 ^ 63 := by
        unfold Fits least greatest at h
        omega
      rw [Int.natAbs_pow] at hbound ⊢
      have hdouble : b.natAbs ^ k * 2 ≤ b.natAbs ^ e :=
        calc b.natAbs ^ k * 2 ≤ b.natAbs ^ k * b.natAbs := Nat.mul_le_mul_left _ (by omega)
          _ = b.natAbs ^ (k + 1) := (Nat.pow_succ _ _).symm
          _ ≤ b.natAbs ^ e := Nat.pow_le_pow_right (by omega) hlt
      omega

end Word

theorem Operator.fits_of_eval? {operator : Operator} {a b c : Int} (h : operator.eval? a b = some c) :
    Word.Fits c := by
  have hcheck : ∀ n : Int, Word.check n = some c → Word.Fits c := by
    intro n hn
    obtain ⟨hfits, rfl⟩ := Word.check_eq_some_iff.mp hn
    exact hfits
  cases operator with
  | add => exact hcheck _ h
  | subtract => exact hcheck _ h
  | multiply => exact hcheck _ h
  | divide =>
      have hquotient : Word.floorDiv? a b = some c := h
      rw [Word.floorDiv?] at hquotient
      split at hquotient
      · cases hquotient
      · exact hcheck _ hquotient

/-- Only of a single number it was not seen that the value fits. -/
theorem Formula.fits_or_eq_leaf {f : Formula} {n : Int} (h : f.value? = some n) : Word.Fits n ∨ f = .leaf n := by
  cases f with
  | leaf m =>
      cases h
      exact .inr rfl
  | binary operator left right =>
      obtain ⟨a, _, hrest⟩ := Option.bind_eq_some_iff.mp h
      obtain ⟨b, _, hresult⟩ := Option.bind_eq_some_iff.mp hrest
      exact .inl (Operator.fits_of_eval? hresult)
  | power base exponent =>
      obtain ⟨b, _, hresult⟩ := Option.bind_eq_some_iff.mp h
      rw [Word.pow?_eq_check, Word.check_eq_some_iff] at hresult
      exact .inl (hresult.2 ▸ hresult.1)

/-! ### What a formula leaves on the stack -/

namespace Formula

/-- The number that running a formula leaves on the stack, or the fault that stops it. -/
def pushed : Formula → Except Fault Int
  | leaf n => .ok (max 1 n)
  | binary operator left right => do
    let a ← left.pushed
    let b ← right.pushed
    operator.compute a b
  | power base exponent => do
    let b ← base.pushed
    if exponent ≤ 1 then .ok b else Op.fitting .multiply (Word.pow? b exponent)

end Formula

namespace Instruction

variable {stack : List Int} {block a : Int} {p : Position} {h : Heading} {out : String}

theorem running_duplicates (level n : Nat) :
    running.ops level (List.replicate n .duplicate) ⟨a :: stack, block, p, h, out⟩ =
      .ok ⟨List.replicate (n + 1) a ++ stack, if n = 0 then block else 1, p.stepped h n, h, out⟩ := by
  induction n generalizing stack block p with
  | zero =>
      rw [Int.natCast_zero, Position.stepped_zero]
      rfl
  | succ n ih =>
      have hstep : running.ops level (List.replicate (n + 1) .duplicate) ⟨a :: stack, block, p, h, out⟩ =
          running.ops level (List.replicate n .duplicate) ⟨a :: a :: stack, 1, p.stepped h 1, h, out⟩ := rfl
      have hcopies : List.replicate (n + 1 + 1) a ++ stack = List.replicate (n + 1) a ++ a :: stack := by
        rw [List.replicate_succ', List.append_assoc, List.singleton_append]
      rw [hstep, ih, hcopies, Position.stepped_stepped, ite_self, if_neg (Nat.succ_ne_zero n), Int.natCast_succ,
        Int.add_comm 1]

/-- Multiplications of equal factors give their power. One that does not fit stops the machine, and then the power
does not fit either. -/
theorem running_multiplications (level n k : Nat) :
    running.ops level (List.replicate (n + 1) .multiply)
        ⟨a ^ k :: (List.replicate (n + 1) a ++ stack), block, p, h, out⟩ =
      (Op.fitting .multiply (Word.check (a ^ (k + n + 1)))).map fun v =>
        ⟨v :: stack, 1, p.stepped h (n + 1), h, out⟩ := by
  have hstep : ∀ (m : Nat) (rest : List Int) (block : Int) (p : Position),
      running.step level .multiply ⟨a ^ m :: a :: rest, block, p, h, out⟩ =
        (Op.fitting .multiply (Word.check (a ^ (m + 1)))).map fun v => ⟨v :: rest, 1, p.stepped h 1, h, out⟩ := by
    intro m rest block p
    rw [pow_succ']
    exact Op.apply_operator_eq .multiply
  induction n generalizing k block p with
  | zero =>
      show running.ops level [.multiply] ⟨a ^ k :: a :: stack, block, p, h, out⟩ = _
      rw [Pass.ops_singleton, hstep]
      rfl
  | succ n ih =>
      show (running.step level .multiply ⟨a ^ k :: a :: (List.replicate (n + 1) a ++ stack), block, p, h, out⟩ >>=
        running.ops level (List.replicate (n + 1) .multiply)) = _
      rw [hstep]
      by_cases hfits : Word.Fits (a ^ (k + 1))
      · have hcheck : Word.check (a ^ (k + 1)) = some (a ^ (k + 1)) := Word.check_eq_some_iff.mpr ⟨hfits, rfl⟩
        rw [hcheck]
        show running.ops level (List.replicate (n + 1) .multiply) _ = _
        have hexponent : k + 1 + n + 1 = k + (n + 1) + 1 := by omega
        rw [ih (k + 1), Position.stepped_stepped, hexponent, Int.natCast_succ, Int.add_comm 1]
      · have hcheck : Word.check (a ^ (k + 1)) = none := Word.check_eq_none_iff.mpr hfits
        have hpower : Word.check (a ^ (k + (n + 1) + 1)) = none :=
          Word.check_eq_none_iff.mpr fun hpower => hfits (Word.fits_pow hpower (by omega))
        rw [hcheck, hpower]
        rfl

theorem running_copies (level : Nat) {e : Nat} (he : 2 ≤ e) :
    (running.times level .duplicate (e - 1) ⟨a :: stack, 1, p, h, out⟩ >>= running.times level .multiply (e - 1)) =
      (Op.fitting .multiply (Word.pow? a e)).map fun v =>
        ⟨v :: stack, 1, p.stepped h ((e - 1 + (e - 1) : Nat) : Int), h, out⟩ := by
  obtain ⟨n, rfl⟩ : ∃ n, e = 1 + n + 1 := ⟨e - 2, by omega⟩
  have hcopies : List.replicate (n + 1 + 1) a ++ stack = a ^ 1 :: (List.replicate (n + 1) a ++ stack) := by
    rw [pow_one]
    rfl
  have hcount : 1 + n + 1 - 1 = n + 1 := by omega
  rw [hcount, Pass.times_eq_ops, running_duplicates, ok_bind, Pass.times_eq_ops, hcopies, running_multiplications,
    ← Word.pow?_eq_check, Position.stepped_stepped]
  rfl

/-- A number is pushed as the size of the block before it, to which it was resized where it is above one. -/
theorem running_leaf (level : Nat) (n : Int) :
    running.formula level (.leaf n) ⟨stack, 1, p, h, out⟩ =
      .ok ⟨max 1 n :: stack, 1, p.stepped h (Formula.leaf n).expand.length, h, out⟩ := by
  simp only [Pass.formula, Formula.expand, List.length_append, List.length_replicate, List.length_singleton]
  cases hlength : Length.ofInt? n with
  | none =>
      have hsmall := Length.ofInt?_eq_none hlength
      have hone : max 1 n = 1 := by omega
      have hcodels : n.toNat - 1 + 1 = 1 := by omega
      rw [hone, hcodels]
      exact Op.apply_push Int.one_pos
  | some length =>
      obtain ⟨hlarge, hcodels⟩ := Length.ofInt?_eq_some hlength
      have hmax : max 1 n = n := by omega
      have hsteps : ((n.toNat - 1 + 1 : Nat) : Int) = n - 1 + 1 := by omega
      show (running.resize (level + 1) length _ >>= _) = _
      rw [running_resize, ok_bind, running_step, hcodels, Op.apply_push (by omega), Position.stepped_stepped,
        hmax, hsteps]

/-- Running a formula pushes what it computes and moves ahead over its codels. -/
theorem running_formula_eq (level : Nat) (f : Formula) :
    running.formula level f ⟨stack, 1, p, h, out⟩ =
      f.pushed.map fun v => ⟨v :: stack, 1, p.stepped h f.expand.length, h, out⟩ := by
  induction f generalizing level stack p with
  | leaf n => exact running_leaf level n
  | binary operator left right ihleft ihright =>
      have hparts : running.formula level (.binary operator left right) ⟨stack, 1, p, h, out⟩ =
          running.formula (level + 1) left ⟨stack, 1, p, h, out⟩ >>= fun s =>
            running.formula (level + 1) right s >>= running.step (level + 1) operator.op := rfl
      rw [hparts, ihleft, Formula.pushed]
      cases left.pushed with
      | error e => rfl
      | ok a =>
          show (running.formula (level + 1) right ⟨a :: stack, 1, p.stepped h left.expand.length, h, out⟩ >>= _) = _
          rw [ihright]
          show _ = Except.map _ (right.pushed >>= fun b => operator.compute a b)
          cases right.pushed with
          | error e => rfl
          | ok b =>
              show operator.op.apply _ = (operator.compute a b).map _
              rw [Op.apply_operator_eq, Position.stepped_stepped, Position.stepped_stepped, Formula.expand,
                List.length_append, List.length_append, List.length_singleton]
              push_cast
              rfl
  | power base exponent ih =>
      have hparts : running.formula level (.power base exponent) ⟨stack, 1, p, h, out⟩ =
          running.formula (level + 1) base ⟨stack, 1, p, h, out⟩ >>= fun s =>
            running.times (level + 1) .duplicate (exponent - 1) s >>=
              running.times (level + 1) .multiply (exponent - 1) := rfl
      rw [hparts, ih, Formula.pushed]
      cases base.pushed with
      | error e => rfl
      | ok b =>
          show (running.times (level + 1) .duplicate (exponent - 1) ⟨b :: stack, 1, _, h, out⟩ >>= _) =
            Except.map _ (if exponent ≤ 1 then .ok b else Op.fitting .multiply (Word.pow? b exponent))
          by_cases hexponent : exponent ≤ 1
          · have hnone : exponent - 1 = 0 := by omega
            rw [if_pos hexponent, Formula.expand, hnone]
            simp only [List.replicate_zero, List.append_nil]
            rfl
          · rw [if_neg hexponent, running_copies (level + 1) (by omega), Position.stepped_stepped, Formula.expand,
              List.length_append, List.length_append, List.length_replicate, List.length_replicate, Nat.add_assoc]
            rfl

end Instruction

/-! ### The value of a formula -/

theorem toOption_bind {ε α β : Type} (x : Except ε α) (f : α → Except ε β) :
    (x >>= f).toOption = x.toOption.bind fun a => (f a).toOption := by
  cases x <;> rfl

theorem toOption_eq_some_iff {ε α : Type} {x : Except ε α} {a : α} : x.toOption = some a ↔ x = .ok a := by
  cases x <;> simp [Except.toOption]

theorem Op.toOption_fitting (o : Op) (n : Option Int) : (o.fitting n).toOption = n := by
  cases n <;> rfl

theorem Operator.toOption_compute (operator : Operator) (a b : Int) :
    (operator.compute a b).toOption = operator.eval? a b := by
  unfold compute
  by_cases hzero : operator = divide ∧ b = 0
  · rw [if_pos hzero]
    obtain ⟨rfl, rfl⟩ := hzero
    rfl
  · rw [if_neg hzero, Op.toOption_fitting]

/-- The faults of arithmetic: a division by zero, and a result that does not fit. -/
def Fault.Arithmetic (fault : Fault) : Prop :=
  fault = .divisionByZero ∨ ∃ operator : Operator, fault = .overflow operator.op

theorem Op.arithmetic_of_fitting (operator : Operator) {n : Option Int} {fault : Fault}
    (h : operator.op.fitting n = .error fault) : fault.Arithmetic := by
  cases n with
  | none => exact .inr ⟨operator, (Except.error.inj h).symm⟩
  | some n => cases h

theorem Operator.arithmetic_of_compute {operator : Operator} {a b : Int} {fault : Fault}
    (h : operator.compute a b = .error fault) : fault.Arithmetic := by
  unfold compute at h
  split at h
  · exact .inl (Except.error.inj h).symm
  · exact Op.arithmetic_of_fitting operator h

namespace Formula

theorem toOption_pushed_binary (operator : Operator) (left right : Formula) :
    (binary operator left right).pushed.toOption =
      left.pushed.toOption.bind fun a => right.pushed.toOption.bind fun b => operator.eval? a b := by
  simp only [pushed, toOption_bind, Operator.toOption_compute]

theorem toOption_pushed_power (base : Formula) {exponent : Nat} (h : 2 ≤ exponent) :
    (power base exponent).pushed.toOption = base.pushed.toOption.bind fun b => Word.pow? b exponent := by
  have hexponent : ¬ exponent ≤ 1 := by omega
  simp only [pushed, toOption_bind, if_neg hexponent, Op.toOption_fitting]

/-- What a proper formula pushes is its value, if it has one. -/
theorem toOption_pushed {f : Formula} (h : f.Proper) : f.pushed.toOption = f.value? := by
  induction f with
  | leaf n =>
      have hn : 1 ≤ n := h
      have hmax : max 1 n = n := by omega
      rw [pushed, hmax]
      rfl
  | binary operator left right ihleft ihright =>
      rw [toOption_pushed_binary, ihleft h.1, ihright h.2]
      rfl
  | power base exponent ih =>
      rw [toOption_pushed_power base h.2, ih h.1]
      rfl

theorem arithmetic_of_pushed {f : Formula} {fault : Fault} (h : f.pushed = .error fault) : fault.Arithmetic := by
  induction f with
  | leaf n => cases h
  | binary operator left right ihleft ihright =>
      rw [pushed] at h
      cases hleft : left.pushed with
      | error e =>
          rw [hleft] at h
          exact ihleft (hleft.trans h)
      | ok a =>
          rw [hleft] at h
          cases hright : right.pushed with
          | error e =>
              rw [hright] at h
              exact ihright (hright.trans h)
          | ok b =>
              rw [hright] at h
              exact Operator.arithmetic_of_compute h
  | power base exponent ih =>
      rw [pushed] at h
      cases hbase : base.pushed with
      | error e =>
          rw [hbase] at h
          exact ih (hbase.trans h)
      | ok b =>
          rw [hbase, ok_bind] at h
          split at h
          · cases h
          · exact Op.arithmetic_of_fitting .multiply h

end Formula

namespace Instruction

theorem running_formula (level : Nat) {f : Formula} (hproper : f.Proper) {v : Int} (hvalue : f.value? = some v)
    {stack : List Int} {p : Position} {h : Heading} {out : String} :
    running.formula level f ⟨stack, 1, p, h, out⟩ = .ok ⟨v :: stack, 1, p.stepped h f.cost, h, out⟩ := by
  rw [← Formula.toOption_pushed hproper, toOption_eq_some_iff] at hvalue
  rw [running_formula_eq, Formula.length_expand hproper, hvalue]
  rfl

theorem apply_number_eq (f : Formula) {s : State} (hblock : s.block = 1) :
    (number f).apply s = f.pushed.map fun v =>
      { s with stack := v :: s.stack, position := s.position.stepped s.heading f.expand.length } := by
  obtain ⟨stack, block, p, heading, out⟩ := s
  cases hblock
  exact running_formula_eq 0 f

/-- A number with a proper formula succeeds exactly where the formula has a value. Then it pushes this value and moves
ahead by the cost of the formula, and all else is as before; otherwise it stops with a fault of arithmetic. -/
theorem apply_number {f : Formula} (hproper : f.Proper) {s : State} (hblock : s.block = 1) :
    ((∃ t, (number f).apply s = .ok t) ↔ ∃ v, f.value? = some v) ∧
    (∀ v, f.value? = some v → (number f).apply s =
      .ok { s with stack := v :: s.stack, position := s.position.stepped s.heading f.cost }) ∧
    (f.value? = none → ∃ fault, (number f).apply s = .error fault ∧ fault.Arithmetic) := by
  rw [apply_number_eq f hblock, Formula.length_expand hproper, ← Formula.toOption_pushed hproper]
  cases hpushed : f.pushed with
  | error fault =>
      refine ⟨⟨?_, ?_⟩, ?_, fun _ => ⟨fault, rfl, Formula.arithmetic_of_pushed hpushed⟩⟩
      · rintro ⟨t, ht⟩
        cases ht
      · rintro ⟨v, hv⟩
        cases hv
      · intro v hv
        cases hv
  | ok v =>
      refine ⟨⟨fun _ => ⟨v, rfl⟩, fun _ => ⟨_, rfl⟩⟩, ?_, ?_⟩
      · intro w hw
        cases hw
        rfl
      · intro hnone
        cases hnone

/-- The cube of a negative difference is pushed after twelve codels, and a quotient by zero stops the machine. -/
theorem apply_number_cube_and_quotient :
    let cube : Formula := .power (.binary .subtract (.leaf 2) (.leaf 5)) 3
    let quotient : Formula := .binary .divide (.leaf 1) (.binary .subtract (.leaf 1) (.leaf 1))
    let s : State := ⟨[7], 1, ⟨3, -1⟩, .south, "é"⟩
    (number cube).apply s = .ok ⟨[-27, 7], 1, ⟨3, 11⟩, .south, "é"⟩ ∧
      ∃ fault, (number quotient).apply s = .error fault ∧ fault.Arithmetic := by
  intro cube quotient s
  have hcube : cube.Proper := ⟨⟨(by decide : (1 : Int) ≤ 2), (by decide : (1 : Int) ≤ 5)⟩, by decide⟩
  have hquotient : quotient.Proper :=
    ⟨(by decide : (1 : Int) ≤ 1), (by decide : (1 : Int) ≤ 1), (by decide : (1 : Int) ≤ 1)⟩
  exact ⟨(apply_number hcube (s := s) rfl).2.1 (-27) (by decide), (apply_number hquotient (s := s) rfl).2.2 (by decide)⟩

end Instruction

end CodelCurve
