import CodelCurve.Proofs.Formula.Descent
import Mathlib.Tactic.Ring

/-! What a sweep that replaces nothing says of the costs. It has then offered all its candidates to one and the same
search, and none was cheaper. Pairs that are no candidates lose nothing by it where their result is the first number
itself, comes from the same pair the other way round, or is so small that a single number is as cheap. This holds of
differences, products, quotients and powers; of the sums, those with a one are left out and may be missed. -/

namespace CodelCurve

theorem Word.check_natCast {n : Nat} (h : (n : Int) ≤ greatest) : check n = some (n : Int) := by
  have hleast : least ≤ 0 := by decide
  exact check_eq_some_iff.mpr ⟨⟨by omega, h⟩, rfl⟩

/-! ### Candidates -/

theorem mem_takeWhile_interval {p : Nat → Bool} {first last n : Nat} (hn : n ∈ interval first last)
    (hp : ∀ m, first ≤ m → m ≤ n → p m) : n ∈ (interval first last).takeWhile p := by
  have hrange : ∀ (length start : Nat), start ≤ n → n < start + length → (∀ m, start ≤ m → m ≤ n → p m) →
      n ∈ (List.range' start length).takeWhile p := by
    intro length
    induction length with
    | zero => omega
    | succ length ih =>
        intro start hstart hend hall
        rw [List.range'_succ, List.takeWhile_cons, if_pos (hall start (Nat.le_refl _) hstart), List.mem_cons]
        obtain rfl | hlt := Nat.eq_or_lt_of_le hstart
        · exact .inl rfl
        · exact .inr (ih (start + 1) hlt (by omega) fun m hm => hall m (by omega))
  obtain ⟨hfirst, hlast⟩ := mem_interval.mp hn
  exact hrange _ first hfirst (by omega) hp

namespace Sweep

variable {limit i j b e : Nat}

theorem mem_pairs {operator : Operator} {outer : List Nat} {inner : Nat → List Nat} :
    Candidate.binary operator i j ∈ outer.flatMap (fun i => (inner i).map (.binary operator i)) ↔
      i ∈ outer ∧ j ∈ inner i := by
  simp only [List.mem_flatMap, List.mem_map, Candidate.binary.injEq]
  constructor
  · rintro ⟨_, hi, _, hj, -, rfl, rfl⟩
    exact ⟨hi, hj⟩
  · rintro ⟨hi, hj⟩
    exact ⟨i, hi, j, hj, trivial, rfl, rfl⟩

theorem mem_candidates_add : Candidate.binary .add i j ∈ candidates limit .add ↔ 2 ≤ i ∧ i ≤ j ∧ i + j ≤ limit := by
  rw [candidates, mem_pairs, mem_interval, mem_interval]
  omega

theorem mem_candidates_sub : Candidate.binary .subtract i j ∈ candidates limit .sub ↔ 1 ≤ j ∧ j < i ∧ i ≤ limit := by
  rw [candidates, mem_pairs, List.mem_reverse, mem_interval, mem_interval]
  omega

theorem mem_candidates_mul :
    Candidate.binary .multiply i j ∈ candidates limit .mul ↔ 2 ≤ i ∧ i ≤ j ∧ i * j ≤ limit := by
  rw [candidates, mem_pairs, mem_interval, mem_interval]
  constructor
  · rintro ⟨⟨htwo, _⟩, hle, hdiv⟩
    exact ⟨htwo, hle, Nat.mul_comm j i ▸ Nat.mul_le_of_le_div i j limit hdiv⟩
  · rintro ⟨htwo, hle, hproduct⟩
    have hdouble : i * 2 ≤ i * j := Nat.mul_le_mul_left i (Nat.le_trans htwo hle)
    exact ⟨⟨htwo, by omega⟩, hle, (Nat.le_div_iff_mul_le (by omega)).mpr (Nat.mul_comm i j ▸ hproduct)⟩

theorem mem_candidates_div : Candidate.binary .divide i j ∈ candidates limit .div ↔ 2 ≤ j ∧ j < i / 2 ∧ i ≤ limit := by
  rw [candidates, mem_pairs, List.mem_reverse, mem_interval, List.mem_range'_1]
  omega

theorem power_mem_candidates (hb : 2 ≤ b) (he : 2 ≤ e) (hpower : b ^ e ≤ limit) :
    Candidate.power b e ∈ candidates limit .pow := by
  have hpositive : 0 < b := by omega
  have hmono : ∀ {d : Nat}, d ≤ e → b ^ d ≤ limit := fun hd => (Nat.pow_le_pow_right hpositive hd).trans hpower
  have hlog : e ≤ limit.log2 := by
    have htwo : 2 ^ e ≤ limit := (Nat.pow_le_pow_left hb e).trans hpower
    exact (Nat.le_log2 (by have := Nat.two_pow_pos e; omega)).mpr htwo
  have hbase : b ≤ limit := by simpa using hmono (d := 1) (by omega)
  simp only [candidates, List.mem_flatMap, List.mem_map]
  refine ⟨b, ?_, e, ?_, rfl⟩
  · refine mem_takeWhile_interval (mem_interval.mpr ⟨hb, hbase⟩) fun m _ hm => ?_
    have hsquare : m * m ≤ b * b := Nat.mul_le_mul hm hm
    have hlimit : b * b ≤ limit := by simpa [Nat.pow_two] using hmono he
    exact decide_eq_true (hsquare.trans hlimit)
  · exact mem_takeWhile_interval (mem_interval.mpr ⟨he, hlog⟩) fun d _ hd => decide_eq_true (hmono hd)

end Sweep

namespace Search

/-! ### A sweep that replaces nothing -/

theorem foldl_offer_count_eq_iff (s : Search × Nat) (cs : List Candidate) :
    (cs.foldl offer s).2 = s.2 ↔ ∀ c ∈ cs, s.1.improvement? c = none := by
  induction cs generalizing s with
  | nil => simp
  | cons c rest ih =>
      rw [List.foldl_cons, List.forall_mem_cons]
      cases himprove : s.1.improvement? c with
      | none =>
          have hoffer : offer s c = s := by rw [offer, himprove]
          rw [hoffer, ih]
          simp
      | some found =>
          have hoffer : (offer s c).2 = s.2 + 1 := by rw [offer, himprove]
          obtain ⟨k, hcount, _⟩ := descends_foldl_offer (offer s c) rest
          rw [hcount, hoffer]
          constructor
          · intro hsame
            omega
          · rintro ⟨hnone, _⟩
            cases hnone

theorem sweep_eq_zero_iff_forall (s : Search) (w : Sweep) :
    (s.sweep w).2 = 0 ↔ ∀ c ∈ w.candidates s.limit, s.improvement? c = none :=
  foldl_offer_count_eq_iff (s, 0) (w.candidates s.limit)

/-- The last of three numbers costs no more than an operator on the formulas of the first two. -/
def Joined (s : Search) (i j n : Nat) : Prop :=
  ∃ a ∈ s.cost? i, ∃ b ∈ s.cost? j, ∃ c ∈ s.cost? n, c ≤ a + b + 1

instance (s : Search) (i j n : Nat) : Decidable (s.Joined i j n) :=
  inferInstanceAs (Decidable (∃ a ∈ s.cost? i, ∃ b ∈ s.cost? j, ∃ c ∈ s.cost? n, c ≤ a + b + 1))

/-- The second of two numbers costs no more than a power of the formula of the first. -/
def Powered (s : Search) (b e n : Nat) : Prop :=
  ∃ a ∈ s.cost? b, ∃ c ∈ s.cost? n, c ≤ a + 2 * ((e : Int) - 1)

instance (s : Search) (b e n : Nat) : Decidable (s.Powered b e n) :=
  inferInstanceAs (Decidable (∃ a ∈ s.cost? b, ∃ c ∈ s.cost? n, c ≤ a + 2 * ((e : Int) - 1)))

section

variable {s : Search} {i j n b e : Nat}

theorem Joined.symm (h : s.Joined i j n) : s.Joined j i n := by
  obtain ⟨a, ha, b, hb, c, hc, hle⟩ := h
  exact ⟨b, hb, a, ha, c, hc, by omega⟩

theorem exists_entry_of_mem (h : n ∈ interval 1 s.limit) : ∃ e, s.entry? n = some e := by
  obtain ⟨hn, hlimit⟩ := mem_interval.mp h
  exact exists_entry (by omega) (by omega)

theorem improvement?_binary_eq_none_iff {operator : Operator} (heval : operator.eval? i j = some (n : Int))
    (hi : i ∈ interval 1 s.limit) (hj : j ∈ interval 1 s.limit) (hn : n ∈ interval 1 s.limit) :
    s.improvement? (.binary operator i j) = none ↔ s.Joined i j n := by
  obtain ⟨a, ha⟩ := exists_entry_of_mem hi
  obtain ⟨b, hb⟩ := exists_entry_of_mem hj
  obtain ⟨c, hc⟩ := exists_entry_of_mem hn
  simp [improvement?, build?, Candidate.target?, heval, Joined, cost?, ha, hb, hc]

theorem improvement?_power_eq_none_iff (hpower : b ^ e = n) (hb : b ∈ interval 1 s.limit)
    (hn : n ∈ interval 1 s.limit) : s.improvement? (.power b e) = none ↔ s.Powered b e n := by
  obtain ⟨a, ha⟩ := exists_entry_of_mem hb
  obtain ⟨c, hc⟩ := exists_entry_of_mem hn
  have htarget : (Candidate.power b e).target? = some (n : Int) := congrArg (fun m : Nat => some (m : Int)) hpower
  simp [improvement?, build?, htarget, Powered, cost?, ha, hc]

theorem joined_of_mem {w : Sweep} {operator : Operator} (hzero : (s.sweep w).2 = 0)
    (hmem : .binary operator i j ∈ w.candidates s.limit) (heval : operator.eval? i j = some (n : Int))
    (hi : i ∈ interval 1 s.limit) (hj : j ∈ interval 1 s.limit) (hn : n ∈ interval 1 s.limit) : s.Joined i j n :=
  (improvement?_binary_eq_none_iff heval hi hj hn).mp ((sweep_eq_zero_iff_forall s w).mp hzero _ hmem)

/-- Where the order of the two numbers does not matter, it is enough that one of the two pairs is a candidate. -/
theorem joined_of_mem_or_mem {w : Sweep} {operator : Operator} (hzero : (s.sweep w).2 = 0)
    (hmem : .binary operator i j ∈ w.candidates s.limit ∨ .binary operator j i ∈ w.candidates s.limit)
    (hcomm : operator.eval? j i = operator.eval? i j) (heval : operator.eval? i j = some (n : Int))
    (hi : i ∈ interval 1 s.limit) (hj : j ∈ interval 1 s.limit) (hn : n ∈ interval 1 s.limit) : s.Joined i j n := by
  obtain hmem | hmem := hmem
  · exact joined_of_mem hzero hmem heval hi hj hn
  · exact (joined_of_mem hzero hmem (hcomm.trans heval) hj hi hn).symm

/-! ### Pairs that are no candidates -/

theorem Moderate.joined_left (hs : s.Moderate) (hi : i ∈ interval 1 s.limit) (hj : j ∈ interval 1 s.limit) :
    s.Joined i j i := by
  obtain ⟨a, ha⟩ := exists_entry_of_mem hi
  obtain ⟨b, hb⟩ := exists_entry_of_mem hj
  have hpositive := (hs hb).1
  exact ⟨_, cost_of_entry ha, _, cost_of_entry hb, _, cost_of_entry ha, by omega⟩

theorem Moderate.joined_of_le_three (hs : s.Moderate) (hi : i ∈ interval 1 s.limit) (hj : j ∈ interval 1 s.limit)
    (hn : n ∈ interval 1 s.limit) (hthree : n ≤ 3) : s.Joined i j n := by
  obtain ⟨a, ha⟩ := exists_entry_of_mem hi
  obtain ⟨b, hb⟩ := exists_entry_of_mem hj
  obtain ⟨c, hc⟩ := exists_entry_of_mem hn
  have hleft := (hs ha).1
  have hright := (hs hb).1
  have hleaf := (hs hc).2
  exact ⟨_, cost_of_entry ha, _, cost_of_entry hb, _, cost_of_entry hc, by omega⟩

theorem powered_one (hone : 1 ∈ interval 1 s.limit) (he : 2 ≤ e) : s.Powered 1 e 1 := by
  obtain ⟨a, ha⟩ := exists_entry_of_mem hone
  exact ⟨_, cost_of_entry ha, _, cost_of_entry ha, by omega⟩

variable (hword : (s.limit : Int) ≤ Word.greatest)

include hword

theorem check_of_mem (hn : n ∈ interval 1 s.limit) : Word.check n = some (n : Int) := by
  have hlimit := (mem_interval.mp hn).2
  exact Word.check_natCast (by omega)

theorem joined_add (hzero : (s.sweep .add).2 = 0) (hi : 2 ≤ i) (hj : 2 ≤ j) (hlimit : i + j ≤ s.limit) :
    s.Joined i j (i + j) := by
  have hn : i + j ∈ interval 1 s.limit := mem_interval.mpr ⟨by omega, hlimit⟩
  have hcomm : Operator.add.eval? j i = Operator.add.eval? i j := by
    rw [Operator.eval?, Operator.eval?, Word.add?, Word.add?, Int.add_comm]
  have hmem := (Nat.le_total i j).imp (fun hle => Sweep.mem_candidates_add.mpr ⟨hi, hle, hlimit⟩)
    fun hle => Sweep.mem_candidates_add.mpr ⟨hj, hle, Nat.add_comm i j ▸ hlimit⟩
  exact joined_of_mem_or_mem hzero hmem hcomm (check_of_mem hword hn) (mem_interval.mpr ⟨by omega, by omega⟩)
    (mem_interval.mpr ⟨by omega, by omega⟩) hn

theorem joined_sub (hzero : (s.sweep .sub).2 = 0) (hi : i ∈ interval 1 s.limit) (hj : j ∈ interval 1 s.limit)
    (hn : i - j ∈ interval 1 s.limit) : s.Joined i j (i - j) := by
  have hpositive := (mem_interval.mp hn).1
  have heval : Operator.subtract.eval? i j = some ((i - j : Nat) : Int) := by
    rw [← check_of_mem hword hn, Int.natCast_sub (by omega)]
    rfl
  have hmem := Sweep.mem_candidates_sub.mpr ⟨(mem_interval.mp hj).1, by omega, (mem_interval.mp hi).2⟩
  exact joined_of_mem hzero hmem heval hi hj hn

theorem Moderate.joined_mul (hs : s.Moderate) (hzero : (s.sweep .mul).2 = 0) (hi : i ∈ interval 1 s.limit)
    (hj : j ∈ interval 1 s.limit) (hn : i * j ∈ interval 1 s.limit) : s.Joined i j (i * j) := by
  obtain rfl | htwo := Nat.eq_or_lt_of_le (mem_interval.mp hi).1
  · rw [Nat.one_mul]
    exact (hs.joined_left hj hi).symm
  obtain rfl | htwo' := Nat.eq_or_lt_of_le (mem_interval.mp hj).1
  · rw [Nat.mul_one]
    exact hs.joined_left hi hj
  have hlimit := (mem_interval.mp hn).2
  have hcomm : Operator.multiply.eval? j i = Operator.multiply.eval? i j := by
    rw [Operator.eval?, Operator.eval?, Word.mul?, Word.mul?, Int.mul_comm]
  have hmem := (Nat.le_total i j).imp (fun hle => Sweep.mem_candidates_mul.mpr ⟨htwo, hle, hlimit⟩)
    fun hle => Sweep.mem_candidates_mul.mpr ⟨htwo', hle, Nat.mul_comm i j ▸ hlimit⟩
  exact joined_of_mem_or_mem hzero hmem hcomm (check_of_mem hword hn) hi hj hn

theorem Moderate.joined_div (hs : s.Moderate) (hzero : (s.sweep .div).2 = 0) (hi : i ∈ interval 1 s.limit)
    (hj : j ∈ interval 1 s.limit) (hn : i / j ∈ interval 1 s.limit) : s.Joined i j (i / j) := by
  obtain rfl | htwo := Nat.eq_or_lt_of_le (mem_interval.mp hj).1
  · rw [Nat.div_one]
    exact hs.joined_left hi hj
  obtain hhalf | hhalf := Nat.lt_or_ge j (i / 2)
  · have heval : Operator.divide.eval? i j = some ((i / j : Nat) : Int) := by
      have hne : (j : Int) ≠ 0 := by omega
      rw [Operator.eval?, Word.floorDiv?_eq, if_neg hne, ← Int.ofNat_fdiv]
      exact check_of_mem hword hn
    exact joined_of_mem hzero (Sweep.mem_candidates_div.mpr ⟨htwo, hhalf, (mem_interval.mp hi).2⟩) heval hi hj hn
  · -- A divisor of about half the number or more leaves a quotient that costs no more as a single number.
    have hsmall : i / j < 4 := (Nat.div_lt_iff_lt_mul (by omega)).mpr (by omega)
    exact hs.joined_of_le_three hi hj hn (by omega)

omit hword

theorem powered_pow (hzero : (s.sweep .pow).2 = 0) (hb : 1 ≤ b) (he : 2 ≤ e) (hlimit : b ^ e ≤ s.limit) :
    s.Powered b e (b ^ e) := by
  have hpositive : 1 ≤ b ^ e := Nat.pow_pos hb
  obtain rfl | htwo := Nat.eq_or_lt_of_le hb
  · rw [Nat.one_pow]
    exact powered_one (mem_interval.mpr ⟨Nat.le_refl 1, Nat.le_trans hpositive hlimit⟩) he
  have hbase : b ≤ b ^ e := Nat.le_self_pow (by omega) b
  exact (improvement?_power_eq_none_iff rfl (mem_interval.mpr ⟨hb, hbase.trans hlimit⟩)
    (mem_interval.mpr ⟨hpositive, hlimit⟩)).mp
      ((sweep_eq_zero_iff_forall s .pow).mp hzero _ (Sweep.power_mem_candidates htwo he hlimit))

end

/-- Where the sweep of differences, products, quotients or powers replaces nothing, no number of the range is dearer
than any pair of the range that has it as its result, or than any power that it is. -/
theorem Reached.settled_of_sweep_eq_zero {limit : Nat} (hword : (limit : Int) ≤ Word.greatest) {s : Search}
    (hs : s.Reached limit) :
    ((s.sweep .sub).2 = 0 → ∀ i ∈ interval 1 limit, ∀ j ∈ interval 1 limit, i - j ∈ interval 1 limit →
      s.Joined i j (i - j)) ∧
    ((s.sweep .mul).2 = 0 → ∀ i ∈ interval 1 limit, ∀ j ∈ interval 1 limit, i * j ∈ interval 1 limit →
      s.Joined i j (i * j)) ∧
    ((s.sweep .div).2 = 0 → ∀ i ∈ interval 1 limit, ∀ j ∈ interval 1 limit, i / j ∈ interval 1 limit →
      s.Joined i j (i / j)) ∧
    ((s.sweep .pow).2 = 0 → ∀ b e : Nat, 1 ≤ b → 2 ≤ e → b ^ e ≤ limit → s.Powered b e (b ^ e)) := by
  obtain rfl := hs.limit_eq
  refine ⟨?_, ?_, ?_, ?_⟩
  · exact fun hzero i hi j hj hn => joined_sub hword hzero hi hj hn
  · exact fun hzero i hi j hj hn => hs.moderate.joined_mul hword hzero hi hj hn
  · exact fun hzero i hi j hj hn => hs.moderate.joined_div hword hzero hi hj hn
  · exact fun hzero b e hb he hlimit => powered_pow hzero hb he hlimit

theorem Reached.settled_of_sweep_eq_zero_ten : ∃ s : Search, s.Reached 10 ∧ ((10 : Nat) : Int) ≤ Word.greatest ∧
    ((s.sweep .sub).2 = 0 ∧ (s.sweep .mul).2 = 0 ∧ (s.sweep .div).2 = 0 ∧ (s.sweep .pow).2 = 0) ∧
    s.Joined 10 1 9 ∧ s.Joined 5 2 10 ∧ s.Joined 10 4 2 ∧ s.Powered 3 2 9 := by
  obtain ⟨s, hs, hzero⟩ : ∃ s : Search, s.Reached 10 ∧ (s.sweep .sub).2 = 0 ∧ (s.sweep .mul).2 = 0 ∧
      (s.sweep .div).2 = 0 ∧ (s.sweep .pow).2 = 0 :=
    ⟨_, reached_run (by decide) [.pow, .mul], by decide +kernel⟩
  have hword : ((10 : Nat) : Int) ≤ Word.greatest := by decide
  obtain ⟨hsub, hmul, hdiv, hpow⟩ := hs.settled_of_sweep_eq_zero hword
  refine ⟨s, hs, hword, hzero, ?_, ?_, ?_, ?_⟩
  · exact hsub hzero.1 10 (by decide) 1 (by decide) (by decide)
  · exact hmul hzero.2.1 5 (by decide) 2 (by decide) (by decide)
  · exact hdiv hzero.2.2.1 10 (by decide) 4 (by decide) (by decide)
  · exact hpow hzero.2.2.2 3 2 (by decide) (by decide) (by decide)

/-- The sweep of sums replaces nothing exactly where no number of the range is dearer than any sum of two numbers from
two on that it is. -/
theorem Reached.sweep_add_eq_zero_iff {limit : Nat} (hword : (limit : Int) ≤ Word.greatest) {s : Search}
    (hs : s.Reached limit) :
    (s.sweep .add).2 = 0 ↔ ∀ i j : Nat, 2 ≤ i → 2 ≤ j → i + j ≤ limit → s.Joined i j (i + j) := by
  obtain rfl := hs.limit_eq
  constructor
  · exact fun hzero i j hi hj hlimit => joined_add hword hzero hi hj hlimit
  · intro hjoined
    rw [sweep_eq_zero_iff_forall]
    intro c hc
    obtain ⟨i, j, rfl⟩ : ∃ i j, c = .binary .add i j := by
      obtain ⟨i, _, hpair⟩ := List.mem_flatMap.mp hc
      obtain ⟨j, _, rfl⟩ := List.mem_map.mp hpair
      exact ⟨i, j, rfl⟩
    obtain ⟨hi, hle, hlimit⟩ := Sweep.mem_candidates_add.mp hc
    have hn : i + j ∈ interval 1 s.limit := mem_interval.mpr ⟨by omega, hlimit⟩
    have heval : Operator.add.eval? i j = some ((i + j : Nat) : Int) := check_of_mem hword hn
    exact (improvement?_binary_eq_none_iff heval (mem_interval.mpr ⟨by omega, by omega⟩)
      (mem_interval.mpr ⟨by omega, by omega⟩) hn).mpr (hjoined i j hi (by omega) hlimit)

theorem Reached.sweep_add_eq_zero_iff_ten : ∃ s : Search, s.Reached 10 ∧ ((10 : Nat) : Int) ≤ Word.greatest ∧
    (s.sweep .add).2 = 0 ∧ s.Joined 8 2 10 := by
  obtain ⟨s, hs, hzero⟩ : ∃ s : Search, s.Reached 10 ∧ (s.sweep .add).2 = 0 :=
    ⟨_, reached_run (by decide) [.pow, .add], by decide +kernel⟩
  have hword : ((10 : Nat) : Int) ≤ Word.greatest := by decide
  exact ⟨s, hs, hword, hzero, (hs.sweep_add_eq_zero_iff hword).mp hzero 8 2 (by decide) (by decide) (by decide)⟩

/-- Nine is cheap as a square. That ten is nine and one is never tried, so ten stays dearer than that. -/
theorem Reached.sum_with_one_missed : ∃ s : Search, s.Reached 10 ∧ (s.sweep .add).2 = 0 ∧
    (s.cost? 1 = some 1 ∧ s.cost? 9 = some 5 ∧ s.cost? 10 = some 9) ∧ ¬ s.Joined 1 9 10 :=
  ⟨_, reached_run (by decide) [.pow, .add], by decide +kernel, by decide +kernel, by decide +kernel⟩

end Search

end CodelCurve
