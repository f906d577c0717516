import CodelCurve.Proofs.Machine.Blocks

/-! The codels of any run, also of one that comes to a cell again. They are known from the positions on which the
primitives are executed: each position keeps the place of its first visit and has the total shift of its last one. So
the codels are fewer than the primitives exactly when some cell is visited twice. -/

namespace CodelCurve

/-! ### The extent of codels -/

/-- The smallest rectangle around positions: it holds them all, and one of them lies on each side. -/
structure Frames (low high : Position) (ps : List Position) : Prop where
  holds : ∀ p ∈ ps, low.x ≤ p.x ∧ low.y ≤ p.y ∧ p.x ≤ high.x ∧ p.y ≤ high.y
  west : ∃ p ∈ ps, p.x = low.x
  north : ∃ p ∈ ps, p.y = low.y
  east : ∃ p ∈ ps, p.x = high.x
  south : ∃ p ∈ ps, p.y = high.y

namespace Frames

variable {low high : Position} {ps qs : List Position}

theorem singleton (p : Position) : Frames p p [p] := by
  constructor <;> simp

theorem exists_side (f : Position → Int) {choose : Int → Int → Int}
    (hchoose : ∀ a b, choose a b = a ∨ choose a b = b) {side : Int} (hside : ∃ q ∈ ps, f q = side) (p : Position) :
    ∃ q ∈ p :: ps, f q = choose side (f p) := by
  rcases hchoose side (f p) with hold | hnew
  · obtain ⟨q, hq, hqside⟩ := hside
    exact ⟨q, List.mem_cons_of_mem _ hq, by rw [hold, hqside]⟩
  · exact ⟨p, List.mem_cons_self, hnew.symm⟩

theorem cons (h : Frames low high ps) (p : Position) :
    Frames ⟨min low.x p.x, min low.y p.y⟩ ⟨max high.x p.x, max high.y p.y⟩ (p :: ps) where
  holds q hq := by
    rcases List.mem_cons.mp hq with rfl | hq
    · refine ⟨?_, ?_, ?_, ?_⟩ <;> dsimp only <;> omega
    · have hold := h.holds q hq
      refine ⟨?_, ?_, ?_, ?_⟩ <;> dsimp only <;> omega
  west := exists_side Position.x (fun a b => (by omega : min a b = a ∨ min a b = b)) h.west p
  north := exists_side Position.y (fun a b => (by omega : min a b = a ∨ min a b = b)) h.north p
  east := exists_side Position.x (fun a b => (by omega : max a b = a ∨ max a b = b)) h.east p
  south := exists_side Position.y (fun a b => (by omega : max a b = a ∨ max a b = b)) h.south p

theorem of_mem_iff (h : Frames low high ps) (hmem : ∀ p, p ∈ ps ↔ p ∈ qs) : Frames low high qs := by
  obtain ⟨hholds, hwest, hnorth, heast, hsouth⟩ := h
  simp only [hmem] at hholds hwest hnorth heast hsouth
  exact ⟨hholds, hwest, hnorth, heast, hsouth⟩

end Frames

namespace CodelMap

theorem frames_foldl (rest : List Position) {corners : Position × Position} {ps : List Position}
    (h : Frames corners.1 corners.2 ps) :
    let grown := rest.foldl (fun (low, high) p =>
      ((⟨min low.x p.x, min low.y p.y⟩ : Position), (⟨max high.x p.x, max high.y p.y⟩ : Position))) corners
    Frames grown.1 grown.2 (rest.reverse ++ ps) := by
  induction rest generalizing corners ps with
  | nil => exact h
  | cons p rest ih =>
      rw [List.reverse_cons, List.append_assoc]
      exact ih (h.cons p)

/-- Codels have an extent, which is the smallest rectangle around them. -/
theorem exists_extent {m : CodelMap} (hm : m.recent ≠ []) :
    ∃ low high, m.extent? = some (low, high) ∧ Frames low high m.recent := by
  unfold extent?
  cases hrecent : m.recent with
  | nil => exact absurd hrecent hm
  | cons first rest =>
      refine ⟨_, _, rfl, (frames_foldl rest (Frames.singleton first)).of_mem_iff fun p => ?_⟩
      simp [or_comm]

end CodelMap

/-! ### Where primitives are executed -/

namespace Op

/-- The states in which primitives in turn are executed, up to the first that fails. -/
def states : List Op → State → List State
  | [], _ => []
  | o :: rest, s =>
    s :: match o.apply s with
      | .ok t => states rest t
      | .error _ => []

end Op

namespace Program

/-- The positions on which the primitives of a program are executed, in order. -/
def track (p : Program) : List Position := (Op.states p.expanded .start).map State.position

end Program

namespace Journey

theorem Leads.states_eq {s t : State} {vs : List Visit} (h : Leads s vs t) :
    Op.states (vs.map Visit.op) s = vs.map Visit.state := by
  induction vs generalizing s with
  | nil => rfl
  | cons v rest ih =>
      obtain ⟨rfl, u, happly, hrest⟩ := h
      simp only [List.map_cons, Op.states, happly, ih hrest]

end Journey

/-! ### Positions written again -/

theorem eraseDups_concat (qs : List Position) (q : Position) :
    (qs ++ [q]).eraseDups = if q ∈ qs then qs.eraseDups else qs.eraseDups ++ [q] := by
  rw [List.eraseDups_append]
  by_cases hq : q ∈ qs <;> simp [List.removeAll, List.eraseDups_cons, hq]

/-- The last of the distinct positions is the one that was new most recently. -/
theorem exists_last_new {qs : List Position} (h : qs ≠ []) : ∃ k q, qs[k]? = some q ∧ q ∉ qs.take k ∧
    (∀ j r, k < j → qs[j]? = some r → r ∈ qs.take j) ∧ qs.eraseDups.getLast? = some q := by
  induction qs using List.reverseRecOn with
  | nil => exact absurd rfl h
  | append_singleton qs a ih =>
      rw [eraseDups_concat]
      by_cases ha : a ∈ qs
      · obtain ⟨k, q, hk, hnew, hold, hlast⟩ := ih (List.ne_nil_of_mem ha)
        have hlt : k < qs.length := (List.getElem?_eq_some_iff.mp hk).1
        refine ⟨k, q, ?_, ?_, ?_, by rw [if_pos ha, hlast]⟩
        · rw [List.getElem?_append_left hlt, hk]
        · rwa [List.take_append_of_le_length (by omega)]
        · intro j r hj hr
          rcases Nat.lt_trichotomy j qs.length with hlow | rfl | hhigh
          · rw [List.getElem?_append_left hlow] at hr
            rw [List.take_append_of_le_length (by omega)]
            exact hold j r hj hr
          · rw [List.getElem?_concat_length, Option.some.injEq] at hr
            rwa [List.take_left', ← hr]
            rfl
          · rw [List.getElem?_eq_none (by simp; omega)] at hr
            cases hr
      · refine ⟨qs.length, a, by simp, by simpa using ha, ?_, by simp [ha]⟩
        intro j r hj hr
        rw [List.getElem?_eq_none (by simp; omega)] at hr
        cases hr

namespace CodelMap

/-- The codels left on a track by primitives, each of which writes the total shift so far. -/
structure Charts (m : CodelMap) (track : List Position) (os : List Op) : Prop where
  unvisited : ∀ q, q ∉ track → m.get? q = none
  visited : ∀ k q, track[k]? = some q → q ∉ track.drop (k + 1) → m.get? q = some (Op.totalShift (os.take (k + 1)))
  listed : m.toList.map Prod.fst = track.eraseDups ∧ ∀ c ∈ m.toList, m.get? c.1 = some c.2
  last : ∃ k q, track[k]? = some q ∧ q ∉ track.take k ∧ (∀ j r, k < j → track[j]? = some r → r ∈ track.take j) ∧
    ∃ s, m.get? q = some s ∧ m.last? = some (q, s)
  extent : ∃ low high, m.extent? = some (low, high) ∧
    (track.map Position.x).min? = some low.x ∧ (track.map Position.y).min? = some low.y ∧
    (track.map Position.x).max? = some high.x ∧ (track.map Position.y).max? = some high.y
  size : m.size = track.length ↔ track.Nodup

theorem exists_last {m : CodelMap} {q : Position} (h : m.recent.head? = some q) :
    ∃ s, m.get? q = some s ∧ m.last? = some (q, s) := by
  obtain ⟨s, hs⟩ := Option.isSome_iff_exists.mp ((m.isSome_get? q).mpr (List.mem_of_mem_head? h))
  refine ⟨s, hs, ?_⟩
  rw [last?, h, Option.bind_some, codel?, hs, Option.map_some]

theorem size_eq_length_iff {m : CodelMap} {qs : List Position} (h : ∀ q, q ∈ m.recent ↔ q ∈ qs) :
    m.size = qs.length ↔ qs.Nodup := by
  constructor
  · intro hsize
    have hsub : m.recent.Subperm qs := m.nodup.subperm fun q hq => (h q).mp hq
    exact (hsub.perm_of_length_le (Nat.le_of_eq hsize.symm)).nodup_iff.mp m.nodup
  · intro hnodup
    exact ((List.perm_ext_iff_of_nodup m.nodup hnodup).mpr h).length_eq

end CodelMap

theorem Frames.min_max {low high : Position} {ps : List Position} (h : Frames low high ps) :
    (ps.map Position.x).min? = some low.x ∧ (ps.map Position.y).min? = some low.y ∧
    (ps.map Position.x).max? = some high.x ∧ (ps.map Position.y).max? = some high.y := by
  simp only [List.min?_eq_some_iff, List.max?_eq_some_iff, List.forall_mem_map]
  refine ⟨⟨?_, fun p hp => (h.holds p hp).1⟩, ⟨?_, fun p hp => (h.holds p hp).2.1⟩,
    ⟨?_, fun p hp => (h.holds p hp).2.2.1⟩, ⟨?_, fun p hp => (h.holds p hp).2.2.2⟩⟩
  · exact List.mem_map.mpr h.west
  · exact List.mem_map.mpr h.north
  · exact List.mem_map.mpr h.east
  · exact List.mem_map.mpr h.south

namespace Journey

theorem reverse_recent_codelsOf (vs : List Visit) :
    (codelsOf vs).recent.reverse = (vs.reverse.map fun v => v.state.position).eraseDups := by
  induction vs with
  | nil => rfl
  | cons v earlier ih =>
      have hmem : v.state.position ∈ (codelsOf earlier).recent ↔
          v.state.position ∈ earlier.reverse.map fun v => v.state.position := by
        rw [← List.mem_reverse, ih, List.mem_eraseDups]
      rw [codelsOf, CodelMap.recent_insert, List.reverse_cons, List.map_append, List.map_singleton, eraseDups_concat,
        ← ih]
      simp only [hmem]
      split <;> simp

theorem mem_recent_codelsOf {vs : List Visit} {q : Position} :
    q ∈ (codelsOf vs.reverse).recent ↔ q ∈ vs.map fun v => v.state.position := by
  rw [← List.mem_reverse, reverse_recent_codelsOf, List.reverse_reverse, List.mem_eraseDups]

/-- The codels of visits in order. -/
theorem charts_codelsOf {vs : List Visit} (hvs : vs ≠ []) :
    (codelsOf vs.reverse).Charts (vs.map fun v => v.state.position) (vs.map Visit.op) where
  unvisited q hq := by
    rw [← mem_recent_codelsOf, ← CodelMap.isSome_get?, Bool.not_eq_true, Option.isSome_eq_false_iff] at hq
    exact Option.isNone_iff_eq_none.mp hq
  visited k q hk hlast := by
    rw [List.getElem?_map, Option.map_eq_some_iff] at hk
    obtain ⟨v, hv, rfl⟩ := hk
    obtain ⟨hlt, rfl⟩ := List.getElem?_eq_some_iff.mp hv
    rw [← List.map_drop] at hlast
    rw [get?_codelsOf_reverse hlt hlast, totalAt, shiftOf_reverse, List.map_take]
  listed := by
    refine ⟨?_, fun c hc => (CodelMap.mem_toList _).mp hc⟩
    rw [CodelMap.map_fst_toList, reverse_recent_codelsOf, List.reverse_reverse]
  last := by
    obtain ⟨k, q, hk, hnew, hold, hlast⟩ := exists_last_new (mt List.map_eq_nil_iff.mp hvs)
    refine ⟨k, q, hk, hnew, hold, CodelMap.exists_last ?_⟩
    rw [← List.getLast?_reverse, reverse_recent_codelsOf, List.reverse_reverse]
    exact hlast
  extent := by
    have hne : (codelsOf vs.reverse).recent ≠ [] := by
      obtain ⟨v, rest, rfl⟩ := List.exists_cons_of_ne_nil hvs
      exact List.ne_nil_of_mem (mem_recent_codelsOf.mpr List.mem_cons_self)
    obtain ⟨low, high, hextent, hframes⟩ := CodelMap.exists_extent hne
    exact ⟨low, high, hextent, (hframes.of_mem_iff fun q => mem_recent_codelsOf).min_max⟩
  size := CodelMap.size_eq_length_iff fun _ => mem_recent_codelsOf

end Journey

namespace Program

/-- A run that succeeds executes every primitive, and its codels are those that the primitives leave on their positions.
Where the size of the program is the number of its primitives, there are as many codels if and only if no position is
visited twice. -/
theorem charts_of_run {p : Program} {e : Execution} (h : p.run = .ok e) :
    p.track.length = p.expanded.length ∧ e.codels.Charts p.track p.expanded ∧
    (p.size = p.expanded.length → ((e.codels.size : Int) = p.size ↔ p.track.Nodup)) := by
  rw [run_eq_map_journey] at h
  cases hjourney : p.journey with
  | error fault =>
      rw [hjourney] at h
      cases h
  | ok j =>
      rw [hjourney] at h
      cases h
      have hvisits : p.visits = .ok j.visits.reverse := by
        rw [visits, hjourney]
        rfl
      have hops := map_op_visits hvisits
      obtain ⟨t, hleads⟩ := exists_leads hvisits
      have htrack : p.track = j.visits.reverse.map fun v => v.state.position := by
        rw [track, ← hops, hleads.states_eq, List.map_map]
        rfl
      have hlength : p.track.length = p.expanded.length := by
        rw [htrack, ← hops, List.length_map, List.length_map]
      have hne : j.visits.reverse ≠ [] := by
        intro hnil
        rw [hnil] at hops
        cases hops
      have hcharts := Journey.charts_codelsOf hne
      rw [← htrack, hops, List.reverse_reverse] at hcharts
      refine ⟨hlength, hcharts, fun hsize => ?_⟩
      rw [hsize, Int.natCast_inj, ← hlength]
      exact hcharts.size

/-- Four turns lead around a square back to the first codel, which gets the shift of the last turn and stays the first
of eight. -/
theorem charts_of_run_around :
    let p : Program :=
      ⟨[.op .push, .op .pointer, .op .push, .op .pointer, .op .push, .op .pointer, .op .push, .op .pointer]⟩
    ∃ e, p.run = .ok e ∧ p.size = p.expanded.length ∧ e.codels.get? ⟨0, 0⟩ = some ⟨8, 12⟩ ∧
      e.codels.toList.map Prod.fst = [⟨0, 0⟩, ⟨1, 0⟩, ⟨2, 0⟩, ⟨2, 1⟩, ⟨2, 2⟩, ⟨1, 2⟩, ⟨0, 2⟩, ⟨0, 1⟩] ∧
      (e.codels.size : Int) ≠ p.size := by
  intro p
  have hstate : ∃ s, p.run.map Execution.state = .ok s := ⟨_, (map_state_run p).trans rfl⟩
  obtain ⟨s, hs⟩ := hstate
  cases hrun : p.run with
  | error fault =>
      rw [hrun] at hs
      cases hs
  | ok e =>
      obtain ⟨_, hcharts, hsize⟩ := charts_of_run hrun
      have htrack : p.track =
          [⟨0, 0⟩, ⟨1, 0⟩, ⟨2, 0⟩, ⟨2, 1⟩, ⟨2, 2⟩, ⟨1, 2⟩, ⟨0, 2⟩, ⟨0, 1⟩, ⟨0, 0⟩] := rfl
      rw [htrack] at hcharts hsize
      refine ⟨e, rfl, rfl, ?_, ?_, ?_⟩
      · exact hcharts.visited 8 ⟨0, 0⟩ rfl (by decide)
      · rw [hcharts.listed.1]
        decide
      · rw [ne_eq, hsize rfl]
        decide

end Program

end CodelCurve
