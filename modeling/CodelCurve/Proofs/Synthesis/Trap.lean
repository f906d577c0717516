import CodelCurve.Proofs.Curve.Ending
import CodelCurve.Proofs.Synthesis.Reading

/-! The trap at the end of a synthesized program. The walk along the curve leaves room for the three codels of the trap
and for the black ones above and below the last codel. The cell north of the trap, however, belongs to the curve at every
order: the program keeps it, and no black codel is drawn there. -/

namespace CodelCurve

open Curve (Ends)

namespace Picture

/-- The cell north of the trap. -/
def northOf (last : Position) : Position := ⟨last.x + 1, last.y - 2⟩

theorem mem_trapCells {last c : Position} :
    c ∈ trapCells last ↔ c.x = last.x + 1 ∧ last.y - 1 ≤ c.y ∧ c.y ≤ last.y + 1 := by
  simp only [trapCells, List.mem_cons, List.not_mem_nil, or_false, Position.ext_iff]
  omega

/-- The cells next to the trap: the black ones, and those beyond the last column and the last row. -/
theorem exit_cases {last t c : Position} (ht : t ∈ trapCells last) (hadj : t.Adjacent c) (hc : c ∉ trapCells last)
    (hlast : c ≠ last) (hnorth : c ≠ northOf last) (push : Pixel) :
    (c, .black) ∈ trap last push ∨ last.x + 1 < c.x ∨ last.y + 1 < c.y := by
  obtain ⟨hcolumn, hfirst, hend⟩ := mem_trapCells.mp ht
  rw [mem_trapCells] at hc
  simp only [northOf, ne_eq, Position.ext_iff] at hlast hnorth
  rcases hadj.cases with ⟨hrow, hwest | heast⟩ | ⟨hsame, hrow⟩
  · have hblack : c = ⟨last.x, last.y - 1⟩ ∨ c = ⟨last.x, last.y + 1⟩ := by
      simp only [Position.ext_iff]
      omega
    rcases hblack with rfl | rfl <;> exact .inl (by simp [trap])
  · exact .inr (.inl (by omega))
  · -- In the column of the trap, what is not to the north lies below it.
    exact .inr (.inr (by omega))

/-- Cells that end like a curve leave the squares of the trap free, but for the cell to the north. -/
theorem not_mem_of_mem_trap {cells : List Position} {last c : Position} {push pixel : Pixel} (h : Ends cells last)
    (hmem : (c, pixel) ∈ trap last push) (hnorth : c ≠ northOf last) : c ∉ cells := by
  intro hc
  simp only [trap, List.mem_cons, Prod.mk.injEq, List.not_mem_nil, or_false] at hmem
  have hwithin := (h.within c hc).2
  rcases hmem with ⟨rfl, _⟩ | ⟨rfl, _⟩ | ⟨rfl, _⟩ | ⟨rfl, _⟩ | ⟨rfl, _⟩ | ⟨rfl, _⟩
  · exact h.exit hc
  · have heq := h.beside_exit _ hc (by simp [Position.Adjacent])
    simp [Position.ext_iff] at heq
  · exact absurd hwithin (by dsimp only; omega)
  · have heq := h.beside_last _ hc (by simp [Position.Adjacent])
    simp [Position.ext_iff] at heq
  · exact absurd hwithin (by dsimp only; omega)
  · exact hnorth rfl

/-- How the trap east of the last codel is shut. -/
structure Shuts (codels : CodelMap) (initial : Color) (codelSize : Nat) (picture : Picture) (low last : Position)
    (shift : Shift) : Prop where
  /-- Its three codels have the colour that a push leads to. -/
  trapped : ∀ t ∈ trapCells last, ∀ i j, i < codelSize → j < codelSize →
    picture.at? codelSize low t i j = some (initial.shifted (shift + ⟨1, 0⟩)).pixel
  /-- The cells of the picture next to them are black, apart from the last codel and the cell to the north. -/
  black : ∀ t ∈ trapCells last, ∀ c, t.Adjacent c → c ∉ trapCells last → c ≠ last → c ≠ northOf last →
    ∀ i j, i < codelSize → j < codelSize → ∀ pixel, picture.at? codelSize low c i j = some pixel → pixel = .black
  /-- To the north there is a codel of the program, which keeps its colour and is not black. -/
  north : ∃ s, codels.get? (northOf last) = some s ∧ (initial.shifted s).pixel ≠ .black ∧
    ∀ i j, i < codelSize → j < codelSize → picture.at? codelSize low (northOf last) i j = some (initial.shifted s).pixel

namespace Draws

variable {codels : CodelMap} {initial : Color} {codelSize : Nat} {picture : Picture} {low high last : Position}
  {shift : Shift}

/-- Codels that end like a curve leave one column and one row for the trap. -/
theorem farCorner_eq (h : Draws codels initial codelSize picture low high last shift)
    (hends : Ends codels.recent.reverse last) : farCorner high last = ⟨last.x + 1, last.y + 1⟩ := by
  obtain ⟨p, hp, heast⟩ := h.frames.east
  obtain ⟨q, hq, hsouth⟩ := h.frames.south
  have hpast := (hends.within p (List.mem_reverse.mpr hp)).1
  have hqpast := (hends.within q (List.mem_reverse.mpr hq)).2
  rw [farCorner, Int.max_eq_right (by omega), Int.max_eq_right (by omega)]

theorem shows_trap (h : Draws codels initial codelSize picture low high last shift)
    (hends : Ends codels.recent.reverse last) {c : Position} {push pixel : Pixel}
    (hmem : (c, pixel) ∈ trap last push) : Shows low (farCorner high last) c := by
  have hwest := h.frames.holds last (List.mem_reverse.mp (List.mem_of_getLast? hends.ends))
  -- The cell to the north is a codel, so the rows of the trap are those of the picture.
  have hcorner := h.frames.holds _ (List.mem_reverse.mp hends.corner)
  rw [h.farCorner_eq hends]
  simp only [trap, List.mem_cons, Prod.mk.injEq, List.not_mem_nil, or_false, Position.ext_iff] at hmem
  unfold Shows
  dsimp only at *
  omega

theorem at?_trap (h : Draws codels initial codelSize picture low high last shift)
    (hends : Ends codels.recent.reverse last) {i j : Nat} (hi : i < codelSize) (hj : j < codelSize) {c : Position}
    {pixel : Pixel} (hmem : (c, pixel) ∈ trap last (initial.shifted (shift + ⟨1, 0⟩)).pixel)
    (hnorth : c ≠ northOf last) : picture.at? codelSize low c i j = some pixel := by
  have hfree : codels.get? c = none := by
    rw [← Option.not_isSome_iff_eq_none, codels.isSome_get?, ← List.mem_reverse]
    exact not_mem_of_mem_trap hends hmem hnorth
  rw [h.pixels i j hi hj, if_pos (h.shows_trap hends hmem), cell_of_mem_trap hfree hmem]

theorem shuts (h : Draws codels initial codelSize picture low high last shift)
    (hends : Ends codels.recent.reverse last) : Shuts codels initial codelSize picture low last shift where
  trapped t ht i j hi hj := by
    refine h.at?_trap hends hi hj ?_ ?_
    · simp only [trapCells, List.mem_cons, List.not_mem_nil, or_false] at ht
      rcases ht with rfl | rfl | rfl <;> simp [trap]
    · rintro rfl
      have hrow := (mem_trapCells.mp ht).2.1
      dsimp only [northOf] at hrow
      omega
  black t ht c hadj hc hlast hnorth i j hi hj pixel hpixel := by
    rcases exit_cases ht hadj hc hlast hnorth (initial.shifted (shift + ⟨1, 0⟩)).pixel with hmem | hbeyond
    · rw [h.at?_trap hends hi hj hmem hnorth] at hpixel
      exact (Option.some.inj hpixel).symm
    · -- The picture ends with the column and the row of the trap.
      rw [h.pixels i j hi hj, h.farCorner_eq hends, if_neg fun hshows => ?_] at hpixel
      · cases hpixel
      · unfold Shows at hshows
        dsimp only at hshows
        omega
  north := by
    have hmem : northOf last ∈ codels.recent := List.mem_reverse.mp hends.corner
    obtain ⟨s, hs⟩ := Option.isSome_iff_exists.mp ((codels.isSome_get? _).mpr hmem)
    exact ⟨s, hs, Color.pixel_ne_black _, fun i j hi hj => h.at?_codel hi hj hs⟩

end Draws

end Picture

theorem Synthesis.Walks.exists_ends {s : Synthesis} {vs : List Visit} (h : s.Walks vs) (horder : 1 ≤ s.order) :
    ∃ last, Ends s.execution.codels.recent.reverse last ∧ s.execution.codels.last?.map Prod.fst = some last := by
  obtain ⟨n, hn⟩ : ∃ n, s.order = n + 1 := ⟨s.order - 1, by omega⟩
  obtain ⟨last, hends⟩ := Curve.exists_ends_generate n
  rw [← hn] at hends
  have htrack : Ends s.execution.codels.recent.reverse last := by
    rw [h.recent]
    exact hends
  refine ⟨last, htrack, ?_⟩
  rw [CodelMap.map_fst_last?, ← List.getLast?_reverse]
  exact htrack.ends

/-- In the picture of a synthesis on a curve of an order from one on, in any colour and with codels of any size, the trap
is shut but for the cell to the north, which is a codel of the program. -/
theorem exists_shuts_of_synthesize {text : List Char} {table : Table} {orders : Layout.Orders} {s : Synthesis}
    (h : synthesize text table orders = .ok s) (horder : 1 ≤ s.order) (initial : Color) {codelSize : Nat}
    (hsize : 1 ≤ codelSize) :
    ∃ picture low high last shift, Picture.render s.execution.codels initial codelSize = .ok picture ∧
      s.execution.codels.extent? = some (low, high) ∧ s.execution.codels.last? = some (last, shift) ∧
      Picture.Shuts s.execution.codels initial codelSize picture low last shift := by
  obtain ⟨vs, hwalks⟩ := exists_walks_of_synthesize h horder
  obtain ⟨picture, low, high, last, shift, hdraws⟩ := Picture.exists_draws hwalks.recent_ne_nil initial hsize
  obtain ⟨stop, hends, hlast⟩ := hwalks.exists_ends horder
  have heq : last = stop := by
    rw [hdraws.ends] at hlast
    exact Option.some.inj hlast
  rw [← heq] at hends
  exact ⟨picture, low, high, last, shift, hdraws.drawn, hdraws.extent, hdraws.ends, hdraws.shuts hends⟩

/-- The trap at the end of a program that prints a tabulator, from dark magenta on with codels of three pixels. -/
theorem exists_shuts_tabulator : ∃ s, synthesize ['\t'] .empty ⟨1, 1⟩ = .ok s ∧ 1 ≤ s.order ∧
    ∃ picture low high last shift, Picture.render s.execution.codels ⟨5, 2⟩ 3 = .ok picture ∧
      s.execution.codels.extent? = some (low, high) ∧ s.execution.codels.last? = some (last, shift) ∧
      Picture.Shuts s.execution.codels ⟨5, 2⟩ 3 picture low last shift := by
  have horder : (synthesize ['\t'] .empty ⟨1, 1⟩).toOption.map Synthesis.order = some 1 := by decide +kernel
  obtain ⟨s, hs, hone⟩ := Option.map_eq_some_iff.mp horder
  have h := toOption_eq_some_iff.mp hs
  exact ⟨s, h, hone.ge, exists_shuts_of_synthesize h hone.ge ⟨5, 2⟩ (by decide)⟩

/-- The picture of the empty text has light magenta next to the trap. -/
theorem not_black_north_of_trap : ∃ s picture low high last shift t c,
    synthesize [] .empty ⟨1, 1⟩ = .ok s ∧ 1 ≤ s.order ∧ Picture.render s.execution.codels ⟨0, 1⟩ 1 = .ok picture ∧
      s.execution.codels.extent? = some (low, high) ∧ s.execution.codels.last? = some (last, shift) ∧
      t ∈ Picture.trapCells last ∧ t.Adjacent c ∧ c ∉ Picture.trapCells last ∧ c ≠ last ∧
      ∃ pixel, picture.at? 1 low c 0 0 = some pixel ∧ pixel ≠ .black := by
  have hrun : (synthesize [] .empty ⟨1, 1⟩).toOption.bind (fun s =>
      (Picture.render s.execution.codels ⟨0, 1⟩ 1).toOption.map fun picture =>
        ((s.order, s.execution.codels.extent?), s.execution.codels.last?, picture.at? 1 ⟨-1, 0⟩ ⟨12, 2⟩ 0 0)) =
      some ((1, some (⟨-1, 0⟩, ⟨12, 4⟩)), some (⟨11, 4⟩, ⟨19, 78⟩), some ⟨255, 192, 255⟩) := by decide +kernel
  obtain ⟨s, hs, hpicture⟩ := Option.bind_eq_some_iff.mp hrun
  obtain ⟨picture, hp, hfacts⟩ := Option.map_eq_some_iff.mp hpicture
  simp only [Prod.mk.injEq] at hfacts
  obtain ⟨⟨horder, hextent⟩, hlast, hpixel⟩ := hfacts
  exact ⟨s, picture, _, _, _, _, ⟨12, 3⟩, ⟨12, 2⟩, toOption_eq_some_iff.mp hs, horder.ge, toOption_eq_some_iff.mp hp,
    hextent, hlast, by decide, by decide, by decide, by decide, _, hpixel, by decide⟩

end CodelCurve
