import CodelCurve.Proofs.Table.Files

/-! What the check of a table promises for the machine. A table that is loaded, or filled by storing formulas, holds only
formulas that evaluate to their numbers. On the machine a number below one is pushed as one, so the number of an entry
is left on the stack exactly where its formula still evaluates to it with these numbers raised to one. -/

namespace CodelCurve

namespace Formula

/-- All exponents are at least one: a power is its base and a copy for each further factor. -/
def PositiveExponents : Formula → Prop
  | leaf _ => True
  | binary _ left right => left.PositiveExponents ∧ right.PositiveExponents
  | power base exponent => base.PositiveExponents ∧ 1 ≤ exponent

/-- The formula with all numbers below one raised to one. -/
def raised : Formula → Formula
  | leaf n => leaf (max 1 n)
  | binary operator left right => binary operator left.raised right.raised
  | power base exponent => power base.raised exponent

theorem raised_eq_self {f : Formula} (h : f.PositiveNumbers) : f.raised = f := by
  induction f with
  | leaf n =>
      have hn : 1 ≤ n := h
      have hmax : max 1 n = n := by omega
      rw [raised, hmax]
  | binary operator left right ihleft ihright => rw [raised, ihleft h.1, ihright h.2]
  | power base exponent ih => rw [raised, ih h]

theorem fits_of_raised {f : Formula} {v w : Int} (hv : f.value? = some v) (hfits : Word.Fits v)
    (hw : f.raised.value? = some w) : Word.Fits w := by
  rcases fits_or_eq_leaf hw with hword | hleaf
  · exact hword
  · cases f with
    | leaf n =>
        cases hv
        cases hleaf
        unfold Word.Fits Word.least Word.greatest at hfits ⊢
        omega
    | binary | power => cases hleaf

/-- The machine pushes the value of the raised formula, where the formula itself has a value. -/
theorem toOption_pushed_eq_raised {f : Formula} (hexponents : f.PositiveExponents) {v : Int} (hv : f.value? = some v) :
    f.pushed.toOption = f.raised.value? := by
  induction f generalizing v with
  | leaf n => rfl
  | binary operator left right ihleft ihright =>
      obtain ⟨a, ha, hrest⟩ := Option.bind_eq_some_iff.mp hv
      obtain ⟨b, hb, _⟩ := Option.bind_eq_some_iff.mp hrest
      rw [toOption_pushed_binary, ihleft hexponents.1 ha, ihright hexponents.2 hb]
      rfl
  | power base exponent ih =>
      obtain ⟨b, hb, hresult⟩ := Option.bind_eq_some_iff.mp hv
      have hbase := ih hexponents.1 hb
      obtain hone | htwo := Nat.eq_or_lt_of_le hexponents.2
      · -- A single factor is not computed with: that it fits was seen where it came from.
        subst hone
        rw [Word.pow?_eq_check, pow_one, Word.check_eq_some_iff] at hresult
        have hpushed : (power base 1).pushed.toOption = base.pushed.toOption := by
          simp only [pushed, toOption_bind, if_pos (Nat.le_refl 1)]
          cases base.pushed <;> rfl
        have hraised : (power base 1).raised.value? = base.raised.value?.bind fun w => Word.pow? w 1 := rfl
        rw [hpushed, hbase, hraised]
        cases hw : base.raised.value? with
        | none => rfl
        | some w =>
            have hfits : Word.Fits w := fits_of_raised hb hresult.1 hw
            rw [Option.bind_some, Word.pow?_eq_check, pow_one]
            exact (Word.check_eq_some_iff.mpr ⟨hfits, rfl⟩).symm
      · rw [toOption_pushed_power base htwo, hbase]
        rfl

end Formula

namespace Table

/-- A table that was filled by storing formulas one after the other. -/
inductive Filled : Table → Prop
  | empty : Filled .empty
  | insert {t t' : Table} {f : Formula} {before : Option Formula} (ht : Filled t)
      (h : t.insert f = .ok (before, t')) : Filled t'

/-- A table that passed the check of a file, or was filled. -/
def Accepted (t : Table) : Prop := (∃ lib name contents, load lib name contents = .ok t) ∨ t.Filled

theorem Filled.value?_of_mem {t : Table} (ht : t.Filled) {n : Int} {f : Formula} (h : (n, f) ∈ t.entries) :
    f.value? = some n := by
  induction ht with
  | empty => cases h
  | @insert t t' g before ht hinsert ih =>
      obtain ⟨m, hvalue, _, rfl⟩ := insert_eq_ok hinsert
      rcases mem_place h with hnew | hold
      · cases hnew
        exact hvalue
      · exact ih hold

theorem value?_of_validated {t t' : Table} (ht : t.validated = .ok t') {n : Int} {f : Formula}
    (h : (n, f) ∈ t'.entries) : f.value? = some n := by
  unfold validated at ht
  cases hfind : t.inconsistent? with
  | some e =>
      rw [hfind] at ht
      cases ht
  | none =>
      rw [hfind] at ht
      cases ht
      have hentry := List.find?_eq_none.mp hfind (n, f) h
      simp only [Bool.or_eq_true, decide_eq_true_eq, bne_iff_ne, not_or, not_not] at hentry
      obtain ⟨hpositive, hvalue⟩ := hentry
      unfold Formula.value at hvalue
      cases hf : f.value? with
      | none =>
          rw [hf, Option.getD_none] at hvalue
          omega
      | some v =>
          rw [hf, Option.getD_some] at hvalue
          rw [hvalue]

theorem Accepted.value?_of_mem {t : Table} (ht : t.Accepted) {n : Int} {f : Formula} (h : (n, f) ∈ t.entries) :
    f.value? = some n := by
  rcases ht with ⟨lib, name, contents, hload⟩ | hfilled
  · obtain ⟨read, _, hvalidated⟩ := bind_eq_ok hload
    exact value?_of_validated hvalidated h
  · exact hfilled.value?_of_mem h

theorem number_of_mem {t : Table} {n : Int} {f : Formula} (h : (n, f) ∈ t.entries) :
    t.number n = .ok (.number f) := by
  rw [number, get, t.find?_eq_some_iff.mpr h]
  rfl

end Table

/-- Running an instruction leaves a number on top of what was stacked. -/
def Instruction.Leaves (i : Instruction) (s : State) (n : Int) : Prop :=
  ∃ s', i.apply s = .ok s' ∧ s'.stack = n :: s.stack

theorem Instruction.leaves_number_iff {f : Formula} {s : State} (hblock : s.block = 1) {n : Int} :
    (number f).Leaves s n ↔ f.pushed = .ok n := by
  unfold Leaves
  rw [apply_number_eq f hblock]
  cases f.pushed with
  | error fault => simp [Except.map]
  | ok v => simp [Except.map]

namespace Table

/-- An entry of an accepted table leaves its number on the stack exactly where its formula evaluates to it with all
numbers below one raised to one. So it does where there are no such numbers. -/
theorem leaves_iff_raised {t : Table} (ht : t.Accepted) {n : Int} {f : Formula} (h : (n, f) ∈ t.entries)
    (hexponents : f.PositiveExponents) {s : State} (hblock : s.block = 1) :
    t.number n = .ok (.number f) ∧ ((Instruction.number f).Leaves s n ↔ f.raised.value? = some n) ∧
      (f.PositiveNumbers → (Instruction.number f).Leaves s n) := by
  have hvalue := ht.value?_of_mem h
  have hiff : (Instruction.number f).Leaves s n ↔ f.raised.value? = some n := by
    rw [Instruction.leaves_number_iff hblock, ← toOption_eq_some_iff, Formula.toOption_pushed_eq_raised hexponents hvalue]
  refine ⟨number_of_mem h, hiff, fun hnumbers => hiff.mpr ?_⟩
  rw [Formula.raised_eq_self hnumbers]
  exact hvalue

/-- The difference of two zeros is pushed as that of two ones, so that it does no harm. -/
theorem leaves_iff_raised_difference :
    let f : Formula := .binary .add (.leaf 4) (.binary .subtract (.leaf 0) (.power (.leaf 0) 1))
    let t : Table := empty.put 4 f
    t.Accepted ∧ (4, f) ∈ t.entries ∧ f.PositiveExponents ∧
      (Instruction.number f).Leaves { State.start with block := 1 } 4 := by
  intro f t
  have hinsert : empty.insert f = .ok (none, t) := rfl
  have ht : t.Accepted := .inr (.insert .empty hinsert)
  have hmem : (4, f) ∈ t.entries := List.mem_singleton_self _
  have hexponents : f.PositiveExponents := ⟨trivial, trivial, trivial, Nat.le_refl 1⟩
  exact ⟨ht, hmem, hexponents, (leaves_iff_raised ht hmem hexponents rfl).2.1.mpr rfl⟩

/-- A table with a zero in a formula passes every check, yet the machine comes to another number. -/
theorem accepted_leaves_another :
    let f : Formula := .binary .add (.leaf 65) (.leaf 0)
    let t : Table := empty.put 65 f
    t.Filled ∧ (∃ contents, load .standard "n" contents = .ok t) ∧ t.number 65 = .ok (.number f) ∧
      (Instruction.number f).Leaves { State.start with block := 1 } 66 ∧
      ¬ (Instruction.number f).Leaves { State.start with block := 1 } 65 := by
  intro f t
  have hinsert : empty.insert f = .ok (none, t) := rfl
  have hstorable : t.Storable := by decide
  obtain ⟨bytes, hform⟩ := (Packed.exists_form_table_iff hstorable).mpr (by decide)
  have hload := load_of_form Library.finds_packed_standard Library.readsPacked_standard hstorable (by decide) hform
    (by decide : isJsonName "n" = false)
  refine ⟨.insert .empty hinsert, ⟨_, hload.trans (if_pos (by decide))⟩, rfl, ?_, ?_⟩
  · exact (Instruction.leaves_number_iff rfl).mpr rfl
  · rw [Instruction.leaves_number_iff rfl]
    decide

end Table

end CodelCurve
