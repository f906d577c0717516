import CodelCurve.Proofs.Formula.Search
import CodelCurve.Table.Basic

/-! The entries of a table. Looking a number up finds exactly its entry; entries that are put in come out in ascending
order; and the table of a search has one entry for each number of the range, with the formula that was found. -/

namespace CodelCurve

namespace Table

theorem find?_of_mem {entries : List (Int × Formula)} (hentries : entries.Pairwise fun a b => a.1 < b.1) {n : Int}
    {f : Formula} (h : (n, f) ∈ entries) : (entries.find? fun e => e.1 = n) = some (n, f) := by
  induction entries with
  | nil => cases h
  | cons head rest ih =>
      obtain ⟨hhead, hrest⟩ := List.pairwise_cons.mp hentries
      rcases List.mem_cons.mp h with rfl | hmem
      · simp
      · have hne : head.1 ≠ n := Int.ne_of_lt (hhead _ hmem)
        rw [List.find?_cons_of_neg (by simpa using hne)]
        exact ih hrest hmem

theorem find?_eq_some_iff (t : Table) {n : Int} {f : Formula} : t.find? n = some f ↔ (n, f) ∈ t.entries := by
  constructor
  · intro h
    obtain ⟨⟨key, g⟩, hentry, rfl⟩ := Option.map_eq_some_iff.mp h
    have hkey : key = n := by simpa using List.find?_some hentry
    exact hkey ▸ List.mem_of_find?_eq_some hentry
  · intro h
    rw [find?, find?_of_mem t.ascending h]
    rfl

theorem place_of_lt {key : Int} {f : Formula} {entries : List (Int × Formula)} (h : ∀ e ∈ entries, key < e.1) :
    place key f entries = (key, f) :: entries := by
  cases entries with
  | nil => rfl
  | cons head rest => rw [place, if_pos (h head List.mem_cons_self)]

theorem place_of_gt {key : Int} {f : Formula} {entries : List (Int × Formula)} (h : ∀ e ∈ entries, e.1 < key) :
    place key f entries = entries ++ [(key, f)] := by
  induction entries with
  | nil => rfl
  | cons head rest ih =>
      have hhead := h head List.mem_cons_self
      rw [place, if_neg (by omega), if_neg (by omega), ih fun e he => h e (List.mem_cons_of_mem _ he)]
      rfl

theorem eq_of_entries {t u : Table} (h : t.entries = u.entries) : t = u := by
  cases t
  cases u
  cases h
  rfl

theorem foldl_put (t : Table) {entries : List (Int × Formula)}
    (h : (t.entries ++ entries).Pairwise fun a b => a.1 < b.1) :
    (entries.foldl (fun t e => t.put e.1 e.2) t).entries = t.entries ++ entries := by
  induction entries generalizing t with
  | nil => exact (List.append_nil _).symm
  | cons head rest ih =>
      have hput : (t.put head.1 head.2).entries = t.entries ++ [head] :=
        place_of_gt fun e he => (List.pairwise_append.mp h).2.2 e he head List.mem_cons_self
      have hnext := ih (t.put head.1 head.2) (by rw [hput, List.append_assoc]; exact h)
      rw [List.foldl_cons, hnext, hput, List.append_assoc, List.singleton_append]

theorem entries_ofEntries {entries : List (Int × Formula)} (h : entries.Pairwise fun a b => a.1 < b.1) :
    (ofEntries entries).entries = entries := by
  induction entries with
  | nil => rfl
  | cons head rest ih =>
      obtain ⟨hhead, hrest⟩ := List.pairwise_cons.mp h
      have hput : (ofEntries (head :: rest)).entries = place head.1 head.2 (ofEntries rest).entries := rfl
      rw [hput, ih hrest, place_of_lt hhead]

theorem entries_ofSearch (s : Search) :
    (ofSearch s).entries = s.entries.toList.zipIdx.map fun (e, k) => ((k : Int) + 1, e.formula) := by
  apply entries_ofEntries
  rw [List.pairwise_iff_getElem]
  intro i j hi hj hij
  simp only [List.getElem_map, List.getElem_zipIdx]
  omega

theorem keys_ofSearch (s : Search) : (ofSearch s).entries.map Prod.fst = (interval 1 s.limit).map Int.ofNat := by
  rw [entries_ofSearch]
  apply List.ext_getElem
  · simp [interval, Search.limit]
  · intro i hi hi'
    simp only [interval, List.getElem_map, List.getElem_zipIdx, List.getElem_range', Int.ofNat_eq_natCast]
    omega

theorem mem_entries_ofSearch {s : Search} {n : Int} {f : Formula} (h : (n, f) ∈ (ofSearch s).entries) :
    ∃ e, s.entry? n = some e ∧ e.formula = f := by
  rw [entries_ofSearch, List.mem_map] at h
  obtain ⟨⟨e, k⟩, he, hpair⟩ := h
  cases hpair
  refine ⟨e, Search.entry_eq_some_iff.mpr ⟨by omega, ?_⟩, rfl⟩
  have hindex : ((k : Int) + 1 - 1).toNat = k := by omega
  rw [hindex, ← Array.getElem?_toList]
  exact List.mem_zipIdx_iff_getElem?.mp he

theorem insert_eq_ok {t t' : Table} {f : Formula} {before : Option Formula} (h : t.insert f = .ok (before, t')) :
    ∃ n, f.value? = some n ∧ 0 < n ∧ t' = t.put n f := by
  unfold insert at h
  cases hvalue : f.value? with
  | none =>
      rw [hvalue] at h
      cases h
  | some n =>
      simp only [hvalue] at h
      split at h
      next => cases h
      next hpositive =>
        cases h
        exact ⟨n, rfl, Int.not_le.mp hpositive, rfl⟩

/-- Through any sweeps over the numbers up to a limit, the entry of each number stays sound; so the table of the formulas
that a plan of search finds has exactly these numbers, each with a formula that evaluates to it. -/
theorem sound_run_and_optimized {limit : Int} (hlimit : 1 ≤ limit) (hword : limit ≤ Word.greatest) :
    ∃ s, Search.ofLimit limit = .ok s ∧
      (∀ (schedule : List Sweep) (n : Int), 1 ≤ n → n ≤ limit →
        ∃ e, Search.entry? (s.run schedule) n = some e ∧ e.Sound limit n) ∧
      ∀ (rounds : Nat) (sweeps : List Sweep), ∃ t, optimized ⟨limit, rounds, sweeps⟩ = .ok t ∧
        t.entries.map Prod.fst = (interval 1 limit.toNat).map Int.ofNat ∧
        ∀ e ∈ t.entries, e.2.value? = some e.1 := by
  obtain ⟨s, hofLimit, hsize, hsound⟩ := Search.ofLimit_eq_ok hlimit
  have hrun : ∀ schedule, (s.run schedule).Sound ∧ (s.run schedule).limit = s.limit :=
    Search.sound_run hsound (hsize ▸ hword)
  refine ⟨s, hofLimit, ?_, ?_⟩
  · intro schedule n hn hle
    obtain ⟨hfinal, hsame⟩ := hrun schedule
    obtain ⟨e, he⟩ := Search.exists_entry hn (by rw [hsame, hsize]; exact hle)
    have hentry := hfinal he
    rw [hsame, hsize] at hentry
    exact ⟨e, he, hentry⟩
  · intro rounds sweeps
    obtain ⟨hfinal, hsame⟩ := hrun (SearchPlan.schedule ⟨limit, rounds, sweeps⟩)
    refine ⟨ofSearch (s.run (SearchPlan.schedule ⟨limit, rounds, sweeps⟩)), ?_, ?_, ?_⟩
    · rw [optimized, hofLimit]
      rfl
    · have hnat : limit.toNat = s.limit := by omega
      rw [keys_ofSearch, hsame, hnat]
    · rintro ⟨n, f⟩ hmem
      obtain ⟨e, he, rfl⟩ := mem_entries_ofSearch hmem
      exact (hfinal he).value

/-- The standard plan finds a formula for each number up to 128. -/
theorem sound_run_and_optimized_standard : 1 ≤ SearchPlan.standard.limit ∧
    SearchPlan.standard.limit ≤ Word.greatest ∧ ∃ t, optimized .standard = .ok t ∧
      t.entries.map Prod.fst = (interval 1 128).map Int.ofNat ∧ ∀ e ∈ t.entries, e.2.value? = some e.1 := by
  have hlimit : 1 ≤ SearchPlan.standard.limit := by decide
  have hword : SearchPlan.standard.limit ≤ Word.greatest := by decide
  obtain ⟨_, _, _, htables⟩ := sound_run_and_optimized hlimit hword
  exact ⟨hlimit, hword, htables 2 Sweep.rotation⟩

end Table

end CodelCurve
