import CodelCurve.Proofs.Synthesis.Output

/-! Where a synthesized program is executed. Packed along the segments of a curve, every slot is filled to its last
codel and every turn has its U-turn, so the machine travels along the cells of the segments, which are those of the
curve. The walk along the curve has no cell twice, hence neither has the run. -/

namespace CodelCurve

open Curve (ahead corner generate Turtle)
open Journey (visiting)

namespace Layout

theorem pointer_not_mem_doublings (n : Nat) : .pointer ∉ Instruction.doublings n := by
  induction n with
  | zero => exact List.not_mem_nil
  | succ n ih => simp [Instruction.doublings, ih]

theorem pointer_not_mem_filling {free : Int} {i : Instruction} (hi : i ∈ filling free) : .pointer ∉ i.expand := by
  obtain ⟨length, _, rfl⟩ := Option.map_eq_some_iff.mp (Option.mem_toList.mp hi)
  have hdoublings := pointer_not_mem_doublings (length.codels / 2 - 1)
  by_cases hodd : length.codels % 2 = 1 <;> simp [Instruction.expand, hodd, hdoublings]

theorem proper_of_mem_filling {free : Int} {i : Instruction} (hi : i ∈ filling free) : i.Proper := by
  obtain ⟨length, _, rfl⟩ := Option.map_eq_some_iff.mp (Option.mem_toList.mp hi)
  trivial

/-- A packed program has no numbers left. -/
theorem Packed.proper {ts : List Token} {units body : List Instruction} (h : Packed ts units body)
    (hunits : ∀ u ∈ units, u.IsUnit) {i : Instruction} (hi : i ∈ body) : i.Proper := by
  induction h with
  | nil => cases hi
  | start _ ih => exact ih hunits hi
  | turn turn _ ih =>
      rw [List.mem_cons] at hi
      obtain rfl | hi := hi
      · trivial
      · exact ih hunits hi
  | slot _ _ ih =>
      rw [List.mem_append, List.mem_append] at hi
      obtain (hi | hi) | hi := hi
      · exact (hunits i (List.mem_append_left _ hi)).proper
      · exact proper_of_mem_filling hi
      · exact ih (fun u hu => hunits u (List.mem_append_right _ hu)) hi

/-- A packed program leads the machine along the cells of its segments. -/
theorem Packed.travels {ts : List Token} {units body : List Instruction} (hpacked : Packed ts units body)
    (hunits : ∀ u ∈ units, u.IsUnit ∧ .pointer ∉ u.expand) (hts : ∀ t ∈ ts, t.Ordinary) {j j' : Journey}
    (h : visiting.run 0 body j = .ok j') : j.Travels (ts.flatMap Token.cells) j' := by
  induction hpacked generalizing j with
  | nil =>
      cases h
      exact .refl _
  | start _ ih => exact (hts _ List.mem_cons_self).elim
  | @turn ts units body turn _ ih =>
      obtain ⟨j₁, hturn, hrest⟩ := bind_eq_ok h
      have hcells : (Token.turn turn).cells = ahead ((Instruction.uTurn turn).expand.length - 3) ++ corner turn := by
        cases turn <;> rfl
      rw [List.flatMap_cons, hcells]
      exact (Journey.travels_uTurn hturn).trans (ih hunits (fun t ht => hts t (List.mem_cons_of_mem _ ht)) hrest)
  | @slot ts units body front capacity hfills _ ih =>
      have hcapacity : 2 ≤ capacity := (hts _ List.mem_cons_self).1
      have hfits := hfills.fits (by omega)
      rw [Pass.run_append] at h
      obtain ⟨j₁, hslot, hrest⟩ := bind_eq_ok h
      have hops : visiting.ops 0 ((front ++ filling (capacity - Program.sizeOf front)).flatMap Instruction.expand) j =
          .ok j₁ := Journey.checking_visiting.run hslot
      have hproper : ∀ i ∈ front ++ filling (capacity - Program.sizeOf front), i.Proper := by
        intro i hi
        obtain hi | hi := List.mem_append.mp hi
        · exact (hunits i (List.mem_append_left _ hi)).1.proper
        · exact proper_of_mem_filling hi
      -- The filler makes up for what the front leaves, so the slot takes as many steps as it has codels.
      have hlength : ((front ++ filling (capacity - Program.sizeOf front)).flatMap Instruction.expand).length =
          capacity.toNat := by
        have hsize := Program.length_flatMap_expand hproper
        rw [Program.sizeOf_append, sizeOf_filling (by omega) hfills.free] at hsize
        omega
      have hstraight := Journey.travels_ops hops fun o ho hpointer => by
        obtain ⟨i, hi, hoi⟩ := List.mem_flatMap.mp ho
        rw [hpointer] at hoi
        obtain hi | hi := List.mem_append.mp hi
        · exact (hunits i (List.mem_append_left _ hi)).2 hoi
        · exact pointer_not_mem_filling hi hoi
      rw [hlength] at hstraight
      exact hstraight.trans (ih (fun u hu => hunits u (List.mem_append_right _ hu))
        (fun t ht => hts t (List.mem_cons_of_mem _ ht)) hrest)

/-- A program laid out on a curve leads the machine along the curve. -/
theorem travels_of_attempt {units : List Instruction} (hunits : ∀ u ∈ units, u.IsUnit ∧ .pointer ∉ u.expand)
    {n : Nat} {p : Program} (hattempt : attempt units (n + 1) = .ok p) {j : Journey} (hjourney : p.journey = .ok j) :
    Journey.start.Travels (generate (n + 1)) j ∧ p.size = p.expanded.length := by
  obtain ⟨ts, htokens, hpack⟩ := attempt_eq_ok hattempt
  obtain ⟨ts', htokens', hcells, hordinary⟩ := Token.tokenize_generate_succ n
  rw [htokens] at htokens'
  cases htokens'
  have hpacked := packed_of_pack (fun u hu => (hunits u hu).1.size_nonneg) hpack
  refine ⟨?_, (Program.length_expanded fun i hi => hpacked.proper (fun u hu => (hunits u hu).1) hi).symm⟩
  obtain ⟨j₁, hfirst, hrest⟩ := bind_eq_ok hjourney
  cases hpacked with
  | start hpacked =>
      rw [← hcells, List.flatMap_cons]
      exact (Journey.travels_step hfirst (by decide)).trans (hpacked.travels hunits hordinary hrest)

end Layout

namespace Synthesis

/-- The cells of the walk along the curve that a program was laid out on. -/
def cells (s : Synthesis) : List Position := Turtle.start.cells (generate s.order)

/-- The program is executed along its curve. -/
structure FollowsCurve (s : Synthesis) : Prop where
  /-- It has a codel for each step of the curve. -/
  size : s.program.size = (generate s.order).length
  /-- Each primitive is executed on its own cell of the walk, in order, and the codels are those left behind. -/
  visits : ∃ vs, s.program.visits = .ok vs ∧ s.execution.codels = Journey.codelsOf vs.reverse ∧
    vs.map Visit.op = s.program.expanded ∧
    (vs.map fun v => v.state.position) = s.cells.take (generate s.order).length
  /-- No cell is visited twice. -/
  nodup : s.cells.Nodup
  codels : s.execution.codels.toList.map Prod.fst = s.cells.take (generate s.order).length
  last : s.execution.codels.last?.map Prod.fst = s.cells[(generate s.order).length - 1]?
  position : s.cells[(generate s.order).length]? = some s.execution.state.position
  heading : s.execution.state.heading = .east

end Synthesis

/-- Every synthesis on a curve of an order from one on is executed along the curve. -/
theorem followsCurve_of_synthesize {text : List Char} {table : Table} {orders : Layout.Orders} {s : Synthesis}
    (h : synthesize text table orders = .ok s) (horder : 1 ≤ s.order) : s.FollowsCurve := by
  obtain ⟨compiled, hcompile, hattempt, hrun⟩ := synthesize_eq_ok h
  have hunits : ∀ u ∈ compiled.units, u.IsUnit ∧ .pointer ∉ u.expand :=
    fun u hu => isUnit_of_printing (printing_of_compile hcompile) hu
  obtain ⟨n, hn⟩ : ∃ n, s.order = n + 1 := ⟨s.order - 1, by omega⟩
  rw [Program.run_eq_map_journey] at hrun
  cases hjourney : s.program.journey with
  | error e =>
      rw [hjourney] at hrun
      cases hrun
  | ok j =>
      rw [hjourney] at hrun
      have hexecution : j.execution = s.execution := Except.ok.inj hrun
      obtain ⟨htravels, hsize⟩ := Layout.travels_of_attempt hunits (hn ▸ hattempt) hjourney
      rw [← hn] at htravels
      have hnodup : s.cells.Nodup := (Curve.clear_cells_generate s.order).nodup
      have hlong : 0 < (generate s.order).length := by
        rw [hn]
        exact Curve.length_generate_pos n
      have hvisits : s.program.visits = .ok j.visits.reverse := by
        rw [Program.visits, hjourney]
        rfl
      have hops := Program.map_op_visits hvisits
      have hrecent := htravels.recent hnodup
      have hturtle : j.turtle = Turtle.start.follow (generate s.order) := htravels.turtle
      refine ⟨?_, ⟨_, hvisits, ?_, hops, htravels.positions⟩, hnodup, ?_, ?_, ?_, ?_⟩
      · have hcount := congrArg List.length htravels.positions
        rw [List.length_map, List.length_take, Turtle.length_cells] at hcount
        rw [hsize, ← hops, List.length_map, hcount]
        omega
      · rw [← hexecution, List.reverse_reverse]
        rfl
      · rw [← hexecution, CodelMap.map_fst_toList]
        exact hrecent
      · rw [← hexecution, CodelMap.map_fst_last?, ← List.getLast?_reverse]
        show (Journey.codelsOf j.visits).recent.reverse.getLast? = _
        rw [hrecent, List.getLast?_eq_getElem?, List.length_take, Turtle.length_cells,
          Nat.min_eq_left (Nat.le_succ _), List.getElem?_take_of_lt (by omega)]
        rfl
      · rw [← hexecution]
        show s.cells[(generate s.order).length]? = some j.turtle.position
        rw [hturtle, ← Turtle.getLast?_cells, List.getLast?_eq_getElem?, Turtle.length_cells]
        rfl
      · rw [← hexecution]
        show j.turtle.heading = .east
        rw [hturtle]
        exact Curve.heading_follow_generate s.order

/-- A tabulator is printed along the first curve. -/
theorem followsCurve_tabulator : ∃ s, synthesize ['\t'] .empty ⟨1, 1⟩ = .ok s ∧ 1 ≤ s.order ∧ s.FollowsCurve := by
  have horder : (synthesize ['\t'] .empty ⟨1, 1⟩).toOption.map Synthesis.order = some 1 := by decide +kernel
  cases h : synthesize ['\t'] .empty ⟨1, 1⟩ with
  | error e =>
      rw [h] at horder
      cases horder
  | ok s =>
      rw [h] at horder
      have hone : s.order = 1 := Option.some.inj horder
      exact ⟨s, rfl, hone.ge, followsCurve_of_synthesize h hone.ge⟩

end CodelCurve
