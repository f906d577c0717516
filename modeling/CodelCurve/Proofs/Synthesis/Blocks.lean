import CodelCurve.Proofs.Machine.Blocks
import CodelCurve.Proofs.Synthesis.Tracking

/-! The blocks of a synthesized program. It is executed along its curve, whose walk is an induced path, so the size
of a block in the state is that of the block in the picture. -/

namespace CodelCurve

open Curve (generate InducedPath Turtle)

/-- A synthesized program runs along its curve. -/
theorem exists_journey_of_synthesize {text : List Char} {table : Table} {orders : Layout.Orders} {s : Synthesis}
    (h : synthesize text table orders = .ok s) (horder : 1 ≤ s.order) :
    ∃ j, s.program.journey = .ok j ∧ j.execution = s.execution ∧ Journey.start.Travels (generate s.order) j := by
  obtain ⟨compiled, hcompile, hattempt, hrun⟩ := synthesize_eq_ok h
  have hunits : ∀ u ∈ compiled.units, u.IsUnit ∧ .pointer ∉ u.expand :=
    fun u hu => isUnit_of_printing (printing_of_compile hcompile) hu
  obtain ⟨n, hn⟩ : ∃ n, s.order = n + 1 := ⟨s.order - 1, by omega⟩
  rw [Program.run_eq_map_journey] at hrun
  cases hjourney : s.program.journey with
  | error e =>
      rw [hjourney] at hrun
      cases hrun
  | ok j =>
      rw [hjourney] at hrun
      rw [hn] at hattempt ⊢
      exact ⟨j, rfl, Except.ok.inj hrun, (Layout.travels_of_attempt hunits hattempt hjourney).1⟩

namespace Synthesis

/-- The cells of the walk that are executed: all but the one where the run ends. -/
def track (s : Synthesis) : List Position := s.cells.take (generate s.order).length

/-- Visits that leave the codels of a program along its curve. -/
structure Walks (s : Synthesis) (vs : List Visit) : Prop where
  visits : s.program.visits = .ok vs
  ops : vs.map Visit.op = s.program.expanded
  leads : ∃ t, Journey.Leads .start vs t
  positions : (vs.map fun v => v.state.position) = s.track
  along : s.execution.codels.Along s.track (Journey.totalAt vs)
  recent : s.execution.codels.recent.reverse = s.track

end Synthesis

theorem exists_walks_of_synthesize {text : List Char} {table : Table} {orders : Layout.Orders} {s : Synthesis}
    (h : synthesize text table orders = .ok s) (horder : 1 ≤ s.order) : ∃ vs, s.Walks vs := by
  obtain ⟨j, hjourney, hexecution, htravels⟩ := exists_journey_of_synthesize h horder
  have hvisits : s.program.visits = .ok j.visits.reverse := by
    rw [Program.visits, hjourney]
    rfl
  have hwalk : InducedPath s.cells := (Curve.clear_cells_generate s.order).inducedPath (Turtle.adjacent_cells _ _)
  have hpositions : (j.visits.reverse.map fun v => v.state.position) = s.track := htravels.positions
  have halong : (Journey.codelsOf j.visits.reverse.reverse).Along (j.visits.reverse.map fun v => v.state.position)
      (Journey.totalAt j.visits.reverse) := by
    refine Journey.along_codelsOf ?_
    rw [hpositions]
    exact hwalk.take _
  rw [List.reverse_reverse, hpositions] at halong
  refine ⟨j.visits.reverse, hvisits, Program.map_op_visits hvisits, Program.exists_leads hvisits, hpositions, ?_, ?_⟩
  · rw [← hexecution]
    exact halong
  · rw [← hexecution]
    exact htravels.recent hwalk.nodup

namespace Synthesis.Walks

variable {s : Synthesis} {vs : List Visit}

theorem length_visits (h : s.Walks vs) : vs.length = s.program.expanded.length := by
  rw [← h.ops, List.length_map]

theorem length_track (h : s.Walks vs) : s.track.length = s.program.expanded.length := by
  rw [← h.positions, List.length_map, h.length_visits]

/-- The codels are listed as they were visited. -/
theorem map_fst_toList (h : s.Walks vs) : s.execution.codels.toList.map Prod.fst = s.track := by
  rw [CodelMap.map_fst_toList, h.recent]

end Synthesis.Walks

end CodelCurve
