import CodelCurve.Proofs.Formula.Search
import Mathlib.Algebra.BigOperators.Group.List.Basic
import Mathlib.Algebra.Order.BigOperators.Group.List
import Mathlib.Tactic.Ring

/-! A search only descends. An offer that is taken lowers the cost of one entry and leaves the others, so the sum of all
costs falls by at least one for each entry that a sweep replaces. The sum starts as that of the numbers of the range and
never goes below zero; so rounds of the same sweeps, whichever they are, at last change nothing any more. -/

namespace CodelCurve

namespace Search

theorem entry_natCast_succ (s : Search) (k : Nat) : s.entry? (k + 1) = s.entries[k]? := by
  simp [ entry?]

theorem cost_of_entry {s : Search} {n : Int} {e : Entry} (h : s.entry? n = some e) : s.cost? n = some e.cost :=
  congrArg (Option.map Entry.cost) h

theorem eq_of_entries {s t : Search} (hlimit : t.limit = s.limit)
    (h : ∀ n : Int, 1 ≤ n → n ≤ s.limit → t.entry? n = s.entry? n) : t = s := by
  have hentries : t.entries = s.entries := by
    apply Array.ext_getElem?
    intro k
    rw [← entry_natCast_succ, ← entry_natCast_succ]
    by_cases hk : k < s.limit
    · exact h (k + 1) (by omega) (by omega)
    · have hs : s.entries.size ≤ k := Nat.not_lt.mp hk
      have ht : t.entries.size ≤ k := hlimit.trans_le hs
      rw [entry_natCast_succ, entry_natCast_succ, Array.getElem?_eq_none hs, Array.getElem?_eq_none ht]
  exact congrArg Search.mk hentries

/-! ### The sum of costs -/

theorem total_eq_sum (s : Search) : s.total = (s.entries.toList.map Entry.cost).sum := by
  have hfold : ∀ (entries : List Entry) (start : Int),
      entries.foldl (fun sum e => sum + e.cost) start = start + (entries.map Entry.cost).sum := by
    intro entries
    induction entries with
    | nil => simp
    | cons e rest ih =>
        intro start
        rw [List.foldl_cons, ih, List.map_cons, List.sum_cons, Int.add_assoc]
  rw [total, ← Array.foldl_toList, hfold, Int.zero_add]

theorem total_replace {s : Search} {n : Int} {current : Entry} (h : s.entry? n = some current) (e : Entry) :
    (s.replace n e).total + current.cost = s.total + e.cost := by
  obtain ⟨hindex, rfl⟩ := Array.getElem?_eq_some_iff.mp (entry_eq_some_iff.mp h).2
  have hentries : (s.replace n e).entries.toList = s.entries.toList.set (n - 1).toNat e :=
    Array.toList_setIfInBounds
  have hlength : (n - 1).toNat < (s.entries.toList.map Entry.cost).length := by simpa using hindex
  rw [total_eq_sum, total_eq_sum, hentries, List.map_set, List.sum_set', dif_pos hlength, List.getElem_map,
    Array.getElem_toList]
  ring

theorem total_nonneg {s : Search} (h : ∀ {n : Int} {e : Entry}, s.entry? n = some e → 1 ≤ e.cost) : 0 ≤ s.total := by
  rw [total_eq_sum]
  apply List.sum_nonneg
  intro cost hcost
  obtain ⟨e, he, rfl⟩ := List.mem_map.mp hcost
  obtain ⟨k, hk⟩ := List.getElem?_of_mem he
  have hpositive := h ((entry_natCast_succ s k).trans (Array.getElem?_toList ▸ hk))
  omega

theorem two_mul_total_ofLimit {limit : Nat} {s : Search} (h : ofLimit limit = .ok s) :
    2 * s.total = (limit * (limit + 1) : Nat) := by
  have hsum : ∀ m : Nat, 2 * ((interval 1 m).map fun n : Nat => (n : Int)).sum = (m * (m + 1) : Nat) := by
    intro m
    induction m with
    | zero => rfl
    | succ m ih =>
        have hinterval : interval 1 (m + 1) = interval 1 m ++ [m + 1] := by
          simp [interval, List.range'_1_concat, Nat.add_comm]
        rw [hinterval, List.map_append, List.sum_append, Int.mul_add, ih, List.map_singleton, List.sum_singleton]
        push_cast
        ring
  unfold ofLimit at h
  split at h
  · cases h
  · cases h
    rw [total_eq_sum, List.map_map, Int.toNat_natCast]
    exact hsum limit

/-! ### Replacements -/

/-- So many entries, each replaced by a cheaper one, lead from one search to another. -/
structure Descends (s : Search) (replaced : Nat) (t : Search) : Prop where
  limit : t.limit = s.limit
  cost_le : ∀ {n : Int} {e : Entry}, s.entry? n = some e → ∃ e', t.entry? n = some e' ∧ e'.cost ≤ e.cost
  total_le : t.total + replaced ≤ s.total
  eq_of_zero : replaced = 0 → t = s

theorem Descends.refl (s : Search) : s.Descends 0 s :=
  ⟨rfl, fun he => ⟨_, he, Int.le_refl _⟩, by simp, fun _ => rfl⟩

theorem Descends.trans {s t u : Search} {k l : Nat} (hst : s.Descends k t) (htu : t.Descends l u) :
    s.Descends (k + l) u := by
  refine ⟨htu.limit.trans hst.limit, ?_, ?_, ?_⟩
  · intro n e he
    obtain ⟨e', he', hle⟩ := hst.cost_le he
    obtain ⟨e'', he'', hle'⟩ := htu.cost_le he'
    exact ⟨e'', he'', Int.le_trans hle' hle⟩
  · have hfirst := hst.total_le
    have hsecond := htu.total_le
    omega
  · intro hzero
    rw [htu.eq_of_zero (by omega), hst.eq_of_zero (by omega)]

theorem descends_replace {s : Search} {c : Candidate} {n : Int} {e : Entry} (h : s.improvement? c = some (n, e)) :
    s.Descends 1 (s.replace n e) := by
  obtain ⟨_, _, current, hcurrent, hcheaper⟩ := improvement?_eq_some h
  obtain ⟨hn, hlimit⟩ := bounds_of_entry hcurrent
  refine ⟨limit_replace s n e, ?_, ?_, ?_⟩
  · intro m e' he'
    rw [entry_replace hn hlimit]
    by_cases hm : m = n
    · subst hm
      rw [hcurrent] at he'
      cases he'
      exact ⟨e, if_pos rfl, Int.le_of_lt hcheaper⟩
    · exact ⟨e', by rw [if_neg hm, he'], Int.le_refl _⟩
  · have htotal := total_replace hcurrent e
    omega
  · intro hone
    cases hone

theorem descends_offer (s : Search × Nat) (c : Candidate) :
    ∃ k, (offer s c).2 = s.2 + k ∧ s.1.Descends k (offer s c).1 := by
  unfold offer
  cases himprove : s.1.improvement? c with
  | none => exact ⟨0, rfl, Descends.refl s.1⟩
  | some found => exact ⟨1, rfl, descends_replace himprove⟩

theorem descends_foldl_offer (s : Search × Nat) (cs : List Candidate) :
    ∃ k, (cs.foldl offer s).2 = s.2 + k ∧ s.1.Descends k (cs.foldl offer s).1 := by
  induction cs generalizing s with
  | nil => exact ⟨0, rfl, Descends.refl s.1⟩
  | cons c rest ih =>
      obtain ⟨k, hcount, hoffer⟩ := descends_offer s c
      obtain ⟨l, hcounts, hrest⟩ := ih (offer s c)
      exact ⟨k + l, by rw [List.foldl_cons, hcounts, hcount, Nat.add_assoc], hoffer.trans hrest⟩

theorem descends_sweep (s : Search) (w : Sweep) : s.Descends (s.sweep w).2 (s.sweep w).1 := by
  obtain ⟨k, hcount, hdescends⟩ := descends_foldl_offer (s, 0) (w.candidates s.limit)
  have hreplaced : (s.sweep w).2 = k := by rw [sweep, hcount, Nat.zero_add]
  exact hreplaced ▸ hdescends

theorem descends_run (s : Search) (schedule : List Sweep) : ∃ k, s.Descends k (s.run schedule) := by
  induction schedule generalizing s with
  | nil => exact ⟨0, Descends.refl s⟩
  | cons w rest ih =>
      obtain ⟨k, hrest⟩ := ih (s.sweep w).1
      exact ⟨_, (descends_sweep s w).trans hrest⟩

theorem run_eq_or_total_lt (s : Search) (schedule : List Sweep) :
    s.run schedule = s ∨ (s.run schedule).total < s.total := by
  obtain ⟨k, hrun⟩ := descends_run s schedule
  obtain hzero | hpositive := Nat.eq_zero_or_pos k
  · exact .inl (hrun.eq_of_zero hzero)
  · have htotal := hrun.total_le
    exact .inr (by omega)

theorem sweep_eq_zero_iff_unchanged (s : Search) (w : Sweep) : (s.sweep w).2 = 0 ↔ ∀ n : Int, 1 ≤ n → n ≤ s.limit →
    (s.sweep w).1.formula? n = s.formula? n ∧ (s.sweep w).1.cost? n = s.cost? n := by
  have hsweep := descends_sweep s w
  constructor
  · intro hzero n _ _
    rw [hsweep.eq_of_zero hzero]
    exact ⟨rfl, rfl⟩
  · intro hsame
    have heq : (s.sweep w).1 = s := by
      refine eq_of_entries hsweep.limit fun n hn hlimit => ?_
      obtain ⟨hformula, hcost⟩ := hsame n hn hlimit
      obtain ⟨e, he⟩ := exists_entry hn hlimit
      obtain ⟨e', he', _⟩ := hsweep.cost_le he
      simp only [formula?, cost?, he, he', Option.map_some, Option.some.injEq] at hformula hcost
      cases e
      cases e'
      cases hformula
      cases hcost
      rw [he, he']
    have htotal := hsweep.total_le
    rw [heq] at htotal
    omega

/-! ### Searches that are reached -/

/-- The search over the numbers up to a limit, after any sweeps. -/
def Reached (limit : Nat) (s : Search) : Prop :=
  ∃ start schedule, ofLimit limit = .ok start ∧ start.run schedule = s

theorem reached_run {limit : Nat} (hlimit : 1 ≤ limit) (schedule : List Sweep) :
    Reached limit (run ⟨((interval 1 limit).map fun n => ⟨.leaf n, n⟩).toArray⟩ schedule) := by
  refine ⟨_, schedule, ?_, rfl⟩
  rw [ofLimit, if_neg (by omega), Int.toNat_natCast]

/-- An entry costs something, and no more than a single number. -/
def Moderate (s : Search) : Prop := ∀ ⦃n : Int⦄ ⦃e : Entry⦄, s.entry? n = some e → 1 ≤ e.cost ∧ e.cost ≤ n

theorem moderate_replace {s : Search} (hs : s.Moderate) {w : Sweep} {c : Candidate} (hc : c ∈ w.candidates s.limit)
    {n : Int} {e : Entry} (h : s.improvement? c = some (n, e)) : (s.replace n e).Moderate := by
  obtain ⟨_, hbuild, current, hcurrent, hcheaper⟩ := improvement?_eq_some h
  have hpositive : 1 ≤ e.cost := by
    cases c with
    | binary operator left right =>
        obtain ⟨a, b, ha, hb, rfl⟩ := build?_binary_eq_some hbuild
        have hleft := (hs ha).1
        have hright := (hs hb).1
        show 1 ≤ a.cost + b.cost + 1
        omega
    | power base exponent =>
        obtain ⟨a, ha, rfl⟩ := build?_power_eq_some hbuild
        have hbase := (hs ha).1
        have hexponent : 2 ≤ exponent := Sweep.regular_of_mem hc
        show 1 ≤ a.cost + 2 * ((exponent : Int) - 1)
        omega
  have hle : e.cost ≤ n := Int.le_trans (Int.le_of_lt hcheaper) (hs hcurrent).2
  intro m found hfound
  exact forall_entry_replace (Q := fun m f => 1 ≤ f.cost ∧ f.cost ≤ m) (fun he => hs he) (bounds_of_entry hcurrent)
    ⟨hpositive, hle⟩ hfound

theorem of_ofLimit {limit : Nat} {s : Search} (h : ofLimit limit = .ok s) : s.limit = limit ∧ s.Moderate := by
  by_cases hlimit : 1 ≤ (limit : Int)
  · obtain ⟨start, hstart, hsize, hsound⟩ := ofLimit_eq_ok hlimit
    rw [h] at hstart
    cases hstart
    exact ⟨Int.natCast_inj.mp hsize, fun _ _ he => ⟨(hsound he).one_le, (hsound he).le⟩⟩
  · rw [ofLimit, if_pos (by omega)] at h
    cases h

namespace Reached

variable {limit : Nat} {s : Search}

theorem limit_eq (hs : s.Reached limit) : s.limit = limit := by
  obtain ⟨start, schedule, hstart, rfl⟩ := hs
  obtain ⟨k, hrun⟩ := descends_run start schedule
  rw [hrun.limit, (of_ofLimit hstart).1]

theorem moderate (hs : s.Reached limit) : s.Moderate := by
  obtain ⟨start, schedule, hstart, rfl⟩ := hs
  exact (run_preserves (P := Moderate) (fun hs hc h => moderate_replace hs hc h) (of_ofLimit hstart).2 schedule).1

theorem total_nonneg (hs : s.Reached limit) : 0 ≤ s.total :=
  Search.total_nonneg fun he => (hs.moderate he).1

theorem two_mul_total_le (hs : s.Reached limit) : 2 * s.total ≤ (limit * (limit + 1) : Nat) := by
  obtain ⟨start, schedule, hstart, rfl⟩ := hs
  obtain ⟨k, hrun⟩ := descends_run start schedule
  have hstart := two_mul_total_ofLimit hstart
  have hle := hrun.total_le
  omega

theorem run (hs : s.Reached limit) (schedule : List Sweep) : (s.run schedule).Reached limit := by
  obtain ⟨start, before, hstart, rfl⟩ := hs
  exact ⟨start, before ++ schedule, hstart, List.foldl_append⟩

end Reached

/-! ### Rounds -/

theorem run_rounds_succ (s : Search) (sweeps : List Sweep) (limit : Int) (rounds : Nat) :
    s.run (SearchPlan.schedule ⟨limit, rounds + 1, sweeps⟩) =
      (s.run (SearchPlan.schedule ⟨limit, rounds, sweeps⟩)).run sweeps := by
  simp only [SearchPlan.schedule, List.replicate_succ', List.flatten_append, List.flatten_singleton]
  exact List.foldl_append

/-- After some rounds the next one changes nothing, or each of them has lowered the sum of costs. -/
theorem rounds_settle_or_descend (s : Search) (sweeps : List Sweep) (limit : Int) (rounds : Nat) :
    (s.run (SearchPlan.schedule ⟨limit, rounds, sweeps⟩)).run sweeps =
        s.run (SearchPlan.schedule ⟨limit, rounds, sweeps⟩) ∨
      (s.run (SearchPlan.schedule ⟨limit, rounds, sweeps⟩)).total + rounds ≤ s.total := by
  induction rounds with
  | zero => exact .inr (by rw [Int.natCast_zero, Int.add_zero]; exact Int.le_refl _)
  | succ rounds ih =>
      rw [run_rounds_succ]
      obtain hsame | hlower := run_eq_or_total_lt (s.run (SearchPlan.schedule ⟨limit, rounds, sweeps⟩)) sweeps
      · left
        rw [hsame, hsame]
      · obtain hsame | hle := ih
        · rw [hsame] at hlower
          omega
        · right
          omega

theorem Reached.run_rounds_eq {limit : Nat} {s : Search} (hs : s.Reached limit) (sweeps : List Sweep) {rounds : Nat}
    (hrounds : limit * (limit + 1) / 2 ≤ rounds) :
    (s.run (SearchPlan.schedule ⟨limit, rounds, sweeps⟩)).run sweeps =
      s.run (SearchPlan.schedule ⟨limit, rounds, sweeps⟩) := by
  obtain hsame | hle := rounds_settle_or_descend s sweeps limit rounds
  · exact hsame
  obtain hsame | hlower := run_eq_or_total_lt (s.run (SearchPlan.schedule ⟨limit, rounds, sweeps⟩)) sweeps
  · exact hsame
  -- By now the sum of costs is used up, so that another round cannot lower it.
  have hnonneg := ((hs.run (SearchPlan.schedule ⟨limit, rounds, sweeps⟩)).run sweeps).total_nonneg
  have htotal := hs.two_mul_total_le
  omega

/-- A sweep lowers costs or keeps them, the sum of costs by at least the number of entries that it replaces, and it
replaces none exactly where it changes nothing. Rounds of sweeps change nothing any more after as many of them as the
sum of the numbers in the range. -/
theorem Reached.descends_and_settles {limit : Nat} {s : Search} (hs : s.Reached limit) :
    (∀ w : Sweep,
      (∀ n : Int, 1 ≤ n → n ≤ limit → ∃ before after,
        s.cost? n = some before ∧ (s.sweep w).1.cost? n = some after ∧ after ≤ before) ∧
      (s.sweep w).1.total + (s.sweep w).2 ≤ s.total ∧
      ((s.sweep w).2 = 0 ↔ ∀ n : Int, 1 ≤ n → n ≤ limit →
        (s.sweep w).1.formula? n = s.formula? n ∧ (s.sweep w).1.cost? n = s.cost? n)) ∧
    ∀ (sweeps : List Sweep) (rounds further : Nat), limit * (limit + 1) / 2 ≤ rounds →
      s.run (SearchPlan.schedule ⟨limit, rounds + further, sweeps⟩) =
        s.run (SearchPlan.schedule ⟨limit, rounds, sweeps⟩) := by
  constructor
  · intro w
    have hsweep := descends_sweep s w
    refine ⟨?_, hsweep.total_le, ?_⟩
    · intro n hn hlimit
      obtain ⟨e, he⟩ := exists_entry hn (hs.limit_eq.symm ▸ hlimit)
      obtain ⟨e', he', hle⟩ := hsweep.cost_le he
      exact ⟨e.cost, e'.cost, cost_of_entry he, cost_of_entry he', hle⟩
    · rw [sweep_eq_zero_iff_unchanged, hs.limit_eq]
  · intro sweeps rounds further hrounds
    induction further with
    | zero => rfl
    | succ further ih =>
        rw [← Nat.add_assoc, run_rounds_succ, hs.run_rounds_eq sweeps (by omega), ih]

/-- After the powers up to ten, the sums replace one entry; after 55 rounds nothing changes. -/
theorem Reached.descends_and_settles_ten : ∃ s : Search, s.Reached 10 ∧ (s.sweep .add).2 = 1 ∧
    (s.sweep .add).1.total + 1 ≤ s.total ∧
    s.run (SearchPlan.schedule ⟨10, 55 + 3, Sweep.rotation⟩) =
      s.run (SearchPlan.schedule ⟨10, 55, Sweep.rotation⟩) := by
  obtain ⟨s, hs, hreplaced⟩ : ∃ s : Search, s.Reached 10 ∧ (s.sweep .add).2 = 1 :=
    ⟨_, reached_run (by decide) [.pow], by decide +kernel⟩
  obtain ⟨hsweeps, hrounds⟩ := hs.descends_and_settles
  obtain ⟨_, htotal, _⟩ := hsweeps .add
  rw [hreplaced] at htotal
  exact ⟨s, hs, hreplaced, htotal, hrounds Sweep.rotation 55 3 (by decide)⟩

end Search

end CodelCurve
