import CodelCurve.Formula.Search
import CodelCurve.Proofs.Formula.Evaluation

/-! What a search keeps through all its sweeps. A sweep changes the entries one at a time: a candidate that is cheaper
than the entry of its number replaces it. What every such replacement keeps holds after any sweeps in a row; so it is
with the soundness of the entries, each of which evaluates to its number, knows its cost and stays in the range. -/

namespace CodelCurve

namespace Formula

/-- A formula and all formulas that it is built of. -/
def subformulas : Formula → List Formula
  | leaf n => [leaf n]
  | binary operator left right => binary operator left right :: (left.subformulas ++ right.subformulas)
  | power base exponent => power base exponent :: base.subformulas

theorem one_le_cost {f : Formula} (h : f.Proper) : 1 ≤ f.cost := by
  induction f with
  | leaf n => exact h
  | binary operator left right ihleft ihright =>
      have hleft := ihleft h.1
      have hright := ihright h.2
      rw [cost]
      omega
  | power base exponent ih =>
      have hbase := ih h.1
      have hexponent := h.2
      rw [cost]
      omega

end Formula

/-! ### Candidates -/

/-- A power with an exponent from two on. -/
def Candidate.Regular : Candidate → Prop
  | binary _ _ _ => True
  | power _ exponent => 2 ≤ exponent

theorem mem_interval {first last n : Nat} : n ∈ interval first last ↔ first ≤ n ∧ n ≤ last := by
  rw [interval, List.mem_range'_1]
  omega

theorem Sweep.regular_of_mem {w : Sweep} {limit : Nat} {c : Candidate} (h : c ∈ w.candidates limit) : c.Regular := by
  cases w with
  | pow =>
      simp only [candidates, List.mem_flatMap, List.mem_map] at h
      obtain ⟨b, _, e, he, rfl⟩ := h
      exact (mem_interval.mp (List.takeWhile_subset _ he)).1
  | mul | div | add | sub =>
      simp only [candidates, List.mem_flatMap, List.mem_map] at h
      obtain ⟨i, _, j, _, rfl⟩ := h
      trivial

namespace Search

/-! ### Entries -/

theorem entry_eq_some_iff {s : Search} {n : Int} {e : Entry} :
    s.entry? n = some e ↔ 1 ≤ n ∧ s.entries[(n - 1).toNat]? = some e := by
  unfold entry?
  split <;> simp_all

theorem bounds_of_entry {s : Search} {n : Int} {e : Entry} (h : s.entry? n = some e) : 1 ≤ n ∧ n ≤ s.limit := by
  obtain ⟨hn, hentry⟩ := entry_eq_some_iff.mp h
  obtain ⟨hindex, _⟩ := Array.getElem?_eq_some_iff.mp hentry
  unfold limit
  omega

theorem exists_entry {s : Search} {n : Int} (hn : 1 ≤ n) (hlimit : n ≤ s.limit) : ∃ e, s.entry? n = some e := by
  have hindex : (n - 1).toNat < s.entries.size := by
    unfold limit at hlimit
    omega
  exact ⟨s.entries[(n - 1).toNat], entry_eq_some_iff.mpr ⟨hn, Array.getElem?_eq_getElem hindex⟩⟩

theorem limit_replace (s : Search) (n : Int) (e : Entry) : (s.replace n e).limit = s.limit :=
  Array.size_setIfInBounds

theorem entry_replace {s : Search} {n : Int} (hn : 1 ≤ n) (hlimit : n ≤ s.limit) (e : Entry) (m : Int) :
    Search.entry? (s.replace n e) m = if m = n then some e else s.entry? m := by
  unfold limit at hlimit
  unfold entry? replace
  rw [Array.getElem?_setIfInBounds]
  by_cases hm : m = n
  · subst hm
    rw [if_pos hn, if_pos rfl, if_pos (by omega), if_pos rfl]
  · by_cases hpositive : 1 ≤ m
    · rw [if_pos hpositive, if_pos hpositive, if_neg (by omega), if_neg hm]
    · rw [if_neg hpositive, if_neg hpositive, if_neg hm]

/-- What holds of all entries and of one put in for a number holds of all entries afterwards. -/
theorem forall_entry_replace {s : Search} {Q : Int → Entry → Prop}
    (hs : ∀ {m : Int} {f : Entry}, s.entry? m = some f → Q m f) {n : Int} {e : Entry} (hn : 1 ≤ n ∧ n ≤ s.limit)
    (he : Q n e) {m : Int} {f : Entry} (h : Search.entry? (s.replace n e) m = some f) : Q m f := by
  rw [entry_replace hn.1 hn.2] at h
  by_cases hm : m = n
  · rw [if_pos hm] at h
    cases h
    exact hm ▸ he
  · rw [if_neg hm] at h
    exact hs h

theorem build?_binary_eq_some {s : Search} {operator : Operator} {left right : Nat} {e : Entry}
    (h : s.build? (.binary operator left right) = some e) :
    ∃ a b, s.entry? left = some a ∧ s.entry? right = some b ∧
      e = ⟨.binary operator a.formula b.formula, a.cost + b.cost + 1⟩ := by
  simp only [build?, Option.bind_eq_bind, Option.bind_eq_some_iff] at h
  obtain ⟨a, ha, b, hb, hresult⟩ := h
  exact ⟨a, b, ha, hb, (Option.some.inj hresult).symm⟩

theorem build?_power_eq_some {s : Search} {base exponent : Nat} {e : Entry}
    (h : s.build? (.power base exponent) = some e) :
    ∃ a, s.entry? base = some a ∧ e = ⟨.power a.formula exponent, a.cost + 2 * ((exponent : Int) - 1)⟩ := by
  simp only [build?, Option.bind_eq_bind, Option.bind_eq_some_iff] at h
  obtain ⟨a, ha, hresult⟩ := h
  exact ⟨a, ha, (Option.some.inj hresult).symm⟩

/-! ### Sweeps -/

theorem improvement?_eq_some {s : Search} {c : Candidate} {n : Int} {e : Entry}
    (h : s.improvement? c = some (n, e)) : c.target? = some n ∧ s.build? c = some e ∧
      ∃ current, s.entry? n = some current ∧ e.cost < current.cost := by
  simp only [improvement?, Option.bind_eq_bind, Option.bind_eq_some_iff] at h
  obtain ⟨m, htarget, current, hcurrent, e', hbuild, hresult⟩ := h
  split at hresult
  next hcheaper =>
    cases hresult
    exact ⟨htarget, hbuild, current, hcurrent, hcheaper⟩
  next => cases hresult

theorem bounds_of_improvement? {s : Search} {c : Candidate} {n : Int} {e : Entry}
    (h : s.improvement? c = some (n, e)) : 1 ≤ n ∧ n ≤ s.limit := by
  obtain ⟨_, _, current, hcurrent, _⟩ := improvement?_eq_some h
  exact bounds_of_entry hcurrent

theorem limit_offer (s : Search × Nat) (c : Candidate) : (offer s c).1.limit = s.1.limit := by
  unfold offer
  split
  · exact limit_replace _ _ _
  · rfl

section Preservation

variable {P : Search → Prop}
  (hstep : ∀ {s : Search} {w : Sweep} {c : Candidate} {n : Int} {e : Entry}, P s → c ∈ w.candidates s.limit →
    s.improvement? c = some (n, e) → P (s.replace n e))

include hstep in
theorem offer_preserves {s : Search × Nat} (hs : P s.1) {w : Sweep} {c : Candidate}
    (hc : c ∈ w.candidates s.1.limit) : P (offer s c).1 := by
  unfold offer
  cases himprove : s.1.improvement? c with
  | none => exact hs
  | some found => exact hstep hs hc himprove

include hstep in
/-- What each replacement keeps holds after any candidates of a sweep. -/
theorem foldl_offer_preserves {s : Search × Nat} (hs : P s.1) {w : Sweep} {cs : List Candidate}
    (hcs : ∀ c ∈ cs, c ∈ w.candidates s.1.limit) :
    P (cs.foldl offer s).1 ∧ (cs.foldl offer s).1.limit = s.1.limit := by
  induction cs generalizing s with
  | nil => exact ⟨hs, rfl⟩
  | cons c rest ih =>
      have hoffer : P (offer s c).1 := offer_preserves hstep hs (hcs c List.mem_cons_self)
      rw [← limit_offer s c] at hcs ⊢
      exact ih hoffer fun d hd => hcs d (List.mem_cons_of_mem _ hd)

include hstep in
/-- What each replacement keeps holds after any sweeps in turn. -/
theorem run_preserves {s : Search} (hs : P s) (schedule : List Sweep) :
    P (s.run schedule) ∧ (s.run schedule).limit = s.limit := by
  induction schedule generalizing s with
  | nil => exact ⟨hs, rfl⟩
  | cons w rest ih =>
      obtain ⟨hsweep, hlimit⟩ := foldl_offer_preserves (s := (s, 0)) hstep hs (w := w) fun _ hc => hc
      rw [← hlimit]
      exact ih hsweep

end Preservation

end Search

/-! ### Soundness -/

/-- An entry that is right for a number of a range. -/
structure Entry.Sound (e : Entry) (limit n : Int) : Prop where
  value : e.formula.value? = some n
  cost : e.cost = e.formula.cost
  one_le : 1 ≤ e.cost
  /-- It costs no more than a single number. -/
  le : e.cost ≤ n
  proper : e.formula.Proper
  /-- No part of the formula leaves the range. -/
  within : ∀ g ∈ e.formula.subformulas, ∃ m, g.value? = some m ∧ 1 ≤ m ∧ m ≤ limit

theorem Entry.sound_leaf {limit n : Int} (hn : 1 ≤ n) (hlimit : n ≤ limit) : Entry.Sound ⟨.leaf n, n⟩ limit n := by
  refine ⟨rfl, rfl, hn, Int.le_refl n, hn, ?_⟩
  intro g hg
  rw [List.mem_singleton.mp hg]
  exact ⟨n, rfl, hn, hlimit⟩

namespace Entry.Sound

variable {a b : Entry} {limit i j n : Int}

theorem binary {operator : Operator} (ha : a.Sound limit i) (hb : b.Sound limit j)
    (heval : operator.eval? i j = some n) (hn : 1 ≤ n ∧ n ≤ limit) (hle : a.cost + b.cost + 1 ≤ n) :
    Entry.Sound ⟨.binary operator a.formula b.formula, a.cost + b.cost + 1⟩ limit n := by
  have hvalue : (Formula.binary operator a.formula b.formula).value? = some n := by
    rw [Formula.value?, ha.value, hb.value]
    exact heval
  have hcost : a.cost + b.cost + 1 = (Formula.binary operator a.formula b.formula).cost := by
    rw [ha.cost, hb.cost, Formula.cost]
  have hproper : (Formula.binary operator a.formula b.formula).Proper := ⟨ha.proper, hb.proper⟩
  refine ⟨hvalue, hcost, hcost ▸ Formula.one_le_cost hproper, hle, hproper, ?_⟩
  intro g hg
  rw [Formula.subformulas, List.mem_cons, List.mem_append] at hg
  rcases hg with rfl | hg | hg
  · exact ⟨n, hvalue, hn⟩
  · exact ha.within g hg
  · exact hb.within g hg

theorem power {e : Nat} (ha : a.Sound limit i) (he : 2 ≤ e) (hpower : i ^ e = n) (hfits : Word.Fits n)
    (hn : 1 ≤ n ∧ n ≤ limit) (hle : a.cost + 2 * ((e : Int) - 1) ≤ n) :
    Entry.Sound ⟨.power a.formula e, a.cost + 2 * ((e : Int) - 1)⟩ limit n := by
  have hvalue : (Formula.power a.formula e).value? = some n := by
    rw [Formula.value?, ha.value]
    show Word.pow? i e = some n
    rw [Word.pow?_eq_check, hpower, Word.check_eq_some_iff]
    exact ⟨hfits, rfl⟩
  have hcost : a.cost + 2 * ((e : Int) - 1) = (Formula.power a.formula e).cost := by
    rw [ha.cost, Formula.cost]
  have hproper : (Formula.power a.formula e).Proper := ⟨ha.proper, he⟩
  refine ⟨hvalue, hcost, hcost ▸ Formula.one_le_cost hproper, hle, hproper, ?_⟩
  intro g hg
  rw [Formula.subformulas, List.mem_cons] at hg
  rcases hg with rfl | hg
  · exact ⟨n, hvalue, hn⟩
  · exact ha.within g hg

end Entry.Sound

namespace Search

def Sound (s : Search) : Prop := ∀ {n : Int} {e : Entry}, s.entry? n = some e → e.Sound s.limit n

/-- A candidate that is built of sound entries and is cheaper than a sound one is sound. -/
theorem sound_of_improvement? {s : Search} (hs : s.Sound) (hword : s.limit ≤ Word.greatest) {c : Candidate}
    (hc : c.Regular) {n : Int} {e : Entry} (h : s.improvement? c = some (n, e)) : e.Sound s.limit n := by
  obtain ⟨htarget, hbuild, current, hcurrent, hcheaper⟩ := improvement?_eq_some h
  have hrange := bounds_of_entry hcurrent
  have hle : e.cost ≤ n := Int.le_trans (Int.le_of_lt hcheaper) (hs hcurrent).le
  cases c with
  | binary operator left right =>
      obtain ⟨a, b, ha, hb, rfl⟩ := build?_binary_eq_some hbuild
      exact (hs ha).binary (hs hb) htarget hrange hle
  | power base exponent =>
      obtain ⟨a, ha, rfl⟩ := build?_power_eq_some hbuild
      have hpower : (base : Int) ^ exponent = n := by
        rw [← Option.some.inj htarget]
        exact (Nat.cast_pow base exponent).symm
      have hfits : Word.Fits n := ⟨by unfold Word.least; omega, by omega⟩
      exact (hs ha).power hc hpower hfits hrange hle

theorem sound_replace {s : Search} (hs : s.Sound) {n : Int} {e : Entry} (hn : 1 ≤ n ∧ n ≤ s.limit)
    (he : e.Sound s.limit n) : (s.replace n e).Sound := by
  intro m found hfound
  rw [limit_replace]
  exact forall_entry_replace hs hn he hfound

/-- Sound entries stay sound through any sweeps, on the same range. -/
theorem sound_run {s : Search} (hs : s.Sound) (hword : s.limit ≤ Word.greatest) (schedule : List Sweep) :
    (s.run schedule).Sound ∧ (s.run schedule).limit = s.limit := by
  have hkept := run_preserves (P := fun t => t.Sound ∧ t.limit ≤ Word.greatest) ?_ ⟨hs, hword⟩ schedule
  · exact ⟨hkept.1.1, hkept.2⟩
  · rintro t w c n e ⟨ht, hlimit⟩ hc himprove
    refine ⟨sound_replace ht (bounds_of_improvement? himprove) ?_, ?_⟩
    · exact sound_of_improvement? ht hlimit (Sweep.regular_of_mem hc) himprove
    · rw [limit_replace]
      exact hlimit

theorem ofLimit_eq_ok {limit : Int} (hlimit : 1 ≤ limit) :
    ∃ s, ofLimit limit = .ok s ∧ s.limit = limit ∧ s.Sound := by
  obtain ⟨size, rfl⟩ : ∃ size : Nat, limit = size := ⟨limit.toNat, by omega⟩
  have hpositive : ¬ (size : Int) ≤ 0 := by omega
  refine ⟨_, if_neg hpositive, ?_, ?_⟩
  · simp [Search.limit, interval]
  · intro n e he
    obtain ⟨hn, hentry⟩ := entry_eq_some_iff.mp he
    have hrange := (bounds_of_entry he).2
    simp only [List.getElem?_toArray, List.getElem?_map, Option.map_eq_some_iff, interval] at hentry
    obtain ⟨m, hm, rfl⟩ := hentry
    obtain ⟨_, hm⟩ := List.getElem?_eq_some_iff.mp hm
    have hnumber : (m : Int) = n := by
      rw [← hm, List.getElem_range']
      omega
    rw [hnumber]
    exact Entry.sound_leaf hn hrange

end Search

end CodelCurve
