import CodelCurve.Proofs.Layout.Pieces

/-! The segments of a curve. On a course with long runs they are the turns of the course with a slot before each, as long
as the run without the set-up of the turn, and the last run. -/

namespace CodelCurve.Layout

open Curve (Course ahead)

namespace Token

/-- The segments of a course. -/
def ofCourse : Course → List Token
  | .last run => [slot run]
  | .bend run t rest => slot ((run - t.setup : Nat) : Int) :: turn t :: ofCourse rest

theorem flatMap_cells_ofCourse {c : Course} (hruns : ∀ run ∈ c.runs, 5 ≤ run) : (ofCourse c).flatMap cells = c.path := by
  induction c with
  | last run => simp [ofCourse, cells, Course.path]
  | bend run t rest ih =>
      have hlong : 5 ≤ run := hruns run List.mem_cons_self
      have hsplit : ahead (run - t.setup) ++ ahead t.setup = ahead run := by
        rw [← Curve.ahead_add]
        congr 1
        cases t <;> simp only [Turn.setup] <;> omega
      rw [ofCourse, List.flatMap_cons, List.flatMap_cons, ih fun r hr => hruns r (List.mem_cons_of_mem _ hr), Course.path,
        ← hsplit, cells, cells, Int.toNat_natCast]
      simp only [List.append_assoc]

/-- Each slot of a course has a turn after it. -/
theorem isChain_ofCourse (c : Course) : (ofCourse c).IsChain fun t u => ¬ (t.isSlot = true ∧ u.isSlot = true) := by
  induction c with
  | last run => exact .singleton _
  | bend run t rest ih =>
      have hturn : (turn t :: ofCourse rest).IsChain fun t u => ¬ (t.isSlot = true ∧ u.isSlot = true) :=
        ih.cons fun _ _ h => by cases h.1
      exact hturn.cons_cons fun h => by cases h.2

/-- The segments of a course are turns and runs, without at most the set-up of a turn. -/
theorem mem_ofCourse {c : Course} {t : Token} (ht : t ∈ ofCourse c) :
    (∃ u, t = turn u) ∨ ∃ run ∈ c.runs, ∃ n : Nat, n ≤ run ∧ run ≤ n + 5 ∧ t = slot n := by
  induction c with
  | last run => exact .inr ⟨run, List.mem_cons_self, run, Nat.le_refl run, by omega, List.mem_singleton.mp ht⟩
  | bend run u rest ih =>
      have hsetup : u.setup ≤ 5 := by cases u <;> decide
      rw [ofCourse, List.mem_cons, List.mem_cons] at ht
      obtain rfl | rfl | ht := ht
      · exact .inr ⟨run, List.mem_cons_self, run - u.setup, by omega, by omega, rfl⟩
      · exact .inl ⟨u, rfl⟩
      · obtain hturn | ⟨r, hr, hslot⟩ := ih ht
        · exact .inl hturn
        · exact .inr ⟨r, List.mem_cons_of_mem _ hr, hslot⟩

theorem spells_ofCourse {c : Course} (hruns : ∀ run ∈ c.runs, 7 ≤ run) : Spells (ofCourse c) c.path where
  cells := flatMap_cells_ofCourse fun run hrun => Nat.le_trans (by decide) (hruns run hrun)
  roomy capacity hmem := by
    obtain ⟨u, hu⟩ | ⟨run, hrun, n, _, hlong, hn⟩ := mem_ofCourse hmem
    · cases hu
    · have hseven := hruns run hrun
      cases hn
      omega
  apart := isChain_ofCourse c
  inner hmem := by
    obtain ⟨u, hu⟩ | ⟨_, _, n, _, _, hn⟩ := mem_ofCourse hmem
    · cases hu
    · cases hn

/-- The segments of a path that begins with a step and goes on along a course with long runs. -/
theorem tokenize_course {c : Course} (hruns : ∀ run ∈ c.runs, 7 ≤ run) :
    tokenize ('F' :: c.path) = .ok (start :: ofCourse c) :=
  (spells_ofCourse hruns).tokenize

/-- A turn, or a slot of a length that curves have. -/
def Ordinary : Token → Prop
  | start => False
  | turn _ => True
  | slot capacity => 2 ≤ capacity ∧ capacity ≤ 27

theorem ordinary_ofCourse {c : Course} (hruns : ∀ run ∈ c.runs, 7 ≤ run ∧ run ≤ 27) {t : Token}
    (ht : t ∈ ofCourse c) : t.Ordinary := by
  obtain ⟨u, rfl⟩ | ⟨run, hrun, n, hshort, hlong, rfl⟩ := mem_ofCourse ht
  · trivial
  · have hbounds := hruns run hrun
    exact ⟨by omega, by omega⟩

/-- The curves from the first order on are read as their start, turns and slots, which are all of their cells. -/
theorem tokenize_generate_succ (n : Nat) : ∃ ts, tokenize (Curve.generate (n + 1)) = .ok (start :: ts) ∧
    (start :: ts).flatMap cells = Curve.generate (n + 1) ∧ ∀ t ∈ ts, t.Ordinary := by
  obtain ⟨hturn, hfirst, _, hruns⟩ := Curve.regular_bend n .clockwise
  have hcurve := Curve.generate_succ n
  cases hc : Curve.bend 2 3 (n + 1) .clockwise with
  | last run =>
      rw [hc] at hturn
      cases hturn
  | bend run turn rest =>
      rw [hc] at hfirst hruns hcurve
      have hrun : run = 12 := hfirst
      have hpath : Curve.generate (n + 1) = 'F' :: (Course.bend 11 turn rest).path := by
        rw [hcurve, hrun]
        rfl
      have hbounds : ∀ r ∈ (Course.bend 11 turn rest).runs, 7 ≤ r ∧ r ≤ 27 := by
        intro r hr
        rw [Course.runs, List.mem_cons] at hr
        obtain rfl | hr := hr
        · exact ⟨by decide, by decide⟩
        · have := hruns r (List.mem_cons_of_mem _ hr)
          omega
      refine ⟨ofCourse (.bend 11 turn rest), ?_, ?_, fun t ht => ordinary_ofCourse hbounds ht⟩
      · rw [hpath, tokenize_course fun r hr => (hbounds r hr).1]
      · rw [hpath, List.flatMap_cons, flatMap_cells_ofCourse fun r hr => Nat.le_trans (by decide) (hbounds r hr).1]
        rfl

/-- Every curve can be read, and its slots have at most 27 codels. -/
theorem tokenize_generate (order : Nat) : ∃ ts, tokenize (Curve.generate order) = .ok ts ∧
    ∀ capacity, slot capacity ∈ ts → capacity ≤ 27 := by
  cases order with
  | zero => exact ⟨[start], rfl, fun capacity h => by simp at h⟩
  | succ n =>
      obtain ⟨ts, hts, _, hordinary⟩ := tokenize_generate_succ n
      refine ⟨start :: ts, hts, fun capacity h => ?_⟩
      rw [List.mem_cons] at h
      obtain h | h := h
      · cases h
      · exact (hordinary _ h).2

end Token

end CodelCurve.Layout
