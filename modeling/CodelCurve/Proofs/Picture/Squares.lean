import CodelCurve.Proofs.Machine.Codels
import CodelCurve.Proofs.Picture.Painting

/-! The squares of a picture. A picture covers the smallest rectangle around its codels, with a column and a row more
where the trap needs them; each pixel of the square of a cell has the colour of that cell, and there are no others. -/

namespace CodelCurve

namespace Picture

/-- A pixel of the square of a cell, in a given column and row of the square, when squares have a given side and the
first square of the picture is that of a given corner. -/
def at? (picture : Picture) (codelSize : Nat) (low c : Position) (i j : Nat) : Option Pixel :=
  if low.x ≤ c.x ∧ low.y ≤ c.y then
    picture.pixel? ((c.x - low.x).toNat * codelSize + i) ((c.y - low.y).toNat * codelSize + j)
  else none

/-- Every pixel of a square has its colour, and outside of the corners there are none. -/
theorem at?_grid {codelSize i j : Nat} (hi : i < codelSize) (hj : j < codelSize) (low far : Position)
    (square : Position → Pixel) (c : Position) :
    (grid codelSize low far square).at? codelSize low c i j = if Shows low far c then some (square c) else none := by
  have hinside : ∀ {n : Nat} (hn : n < codelSize) (column columns : Nat),
      column * codelSize + n < columns * codelSize ↔ column < columns := by
    intro n hn column columns
    rw [← Nat.div_lt_iff_lt_mul (by omega), div_square hn]
  unfold at?
  by_cases hlow : low.x ≤ c.x ∧ low.y ≤ c.y
  · have hcolumn : low.x + ((c.x - low.x).toNat : Nat) = c.x := by omega
    have hrow : low.y + ((c.y - low.y).toNat : Nat) = c.y := by omega
    have hshows : ((c.x - low.x).toNat < (far.x - low.x + 1).toNat ∧ (c.y - low.y).toNat < (far.y - low.y + 1).toNat) ↔
        Shows low far c := by
      unfold Shows
      omega
    rw [if_pos hlow, grid, pixel?_ofPixels, div_square hi, div_square hj, hcolumn, hrow]
    simp only [hinside hi, hinside hj, hshows]
  · rw [if_neg hlow, if_neg fun hshows => hlow ⟨hshows.1, hshows.2.1⟩]

theorem render_eq_grid {codels : CodelMap} {last low high : Position} {shift : Shift}
    (hlast : codels.last? = some (last, shift)) (hextent : codels.extent? = some (low, high)) (initial : Color)
    {codelSize : Nat} (hsize : 1 ≤ codelSize) :
    render codels initial codelSize = .ok (grid codelSize low (farCorner high last)
      (cell codels initial last (initial.shifted (shift + ⟨1, 0⟩)).pixel)) := by
  simp only [render, if_neg (by omega : ¬ codelSize = 0), hlast, hextent]
  rw [Canvas.blank_eq_ofColors, Canvas.paintAll_ofColors hsize, Canvas.paintAll_ofColors hsize, painted_eq_cell]
  rfl

/-- The squares that codels are drawn as: the picture shows the cells from the first corner of the extent to the far
one, each in its colour. -/
structure Draws (codels : CodelMap) (initial : Color) (codelSize : Nat) (picture : Picture) (low high last : Position)
    (shift : Shift) : Prop where
  drawn : render codels initial codelSize = .ok picture
  extent : codels.extent? = some (low, high)
  frames : Frames low high codels.recent
  ends : codels.last? = some (last, shift)
  pixels : ∀ (i j : Nat), i < codelSize → j < codelSize → ∀ c, picture.at? codelSize low c i j =
    if Shows low (farCorner high last) c then
      some (cell codels initial last (initial.shifted (shift + ⟨1, 0⟩)).pixel c)
    else none

theorem exists_draws {codels : CodelMap} (hcodels : codels.recent ≠ []) (initial : Color) {codelSize : Nat}
    (hsize : 1 ≤ codelSize) :
    ∃ picture low high last shift, Draws codels initial codelSize picture low high last shift := by
  obtain ⟨low, high, hextent, hframes⟩ := CodelMap.exists_extent hcodels
  obtain ⟨last, rest, hrecent⟩ := List.exists_cons_of_ne_nil hcodels
  obtain ⟨shift, hshift⟩ : ∃ shift, codels.get? last = some shift := by
    rw [← Option.isSome_iff_exists, CodelMap.isSome_get?, hrecent]
    exact List.mem_cons_self
  have hlast : codels.last? = some (last, shift) := by
    simp [CodelMap.last?, hrecent, CodelMap.codel?, hshift]
  exact ⟨_, low, high, last, shift, render_eq_grid hlast hextent initial hsize, hextent, hframes, hlast,
    fun i j hi hj c => at?_grid hi hj low _ _ c⟩

namespace Draws

variable {codels : CodelMap} {initial : Color} {codelSize : Nat} {picture : Picture} {low high last : Position}
  {shift : Shift}

theorem at?_codel (h : Draws codels initial codelSize picture low high last shift) {i j : Nat} (hi : i < codelSize)
    (hj : j < codelSize) {c : Position} {s : Shift} (hc : codels.get? c = some s) :
    picture.at? codelSize low c i j = some (initial.shifted s).pixel := by
  have hmem : c ∈ codels.recent := (codels.isSome_get? c).mp (by rw [hc]; rfl)
  obtain ⟨hwest, hnorth, heast, hsouth⟩ := h.frames.holds c hmem
  -- The far corner is moved outwards only.
  have hshows : Shows low (farCorner high last) c :=
    ⟨hwest, hnorth, Int.le_trans heast (Int.le_max_left _ _), Int.le_trans hsouth (Int.le_max_left _ _)⟩
  rw [h.pixels i j hi hj, if_pos hshows, cell, hc]

theorem eq_grid (h : Draws codels initial codelSize picture low high last shift) (hsize : 1 ≤ codelSize) :
    picture = grid codelSize low (farCorner high last)
      (cell codels initial last (initial.shifted (shift + ⟨1, 0⟩)).pixel) :=
  Except.ok.inj (h.drawn.symm.trans (render_eq_grid h.ends h.extent initial hsize))

end Draws

/-- Codels are drawn pixel by pixel. The rectangle of the picture is that of the extent, with a column and a row more
where the trap needs them, and each pixel has the colour of its square. -/
theorem exists_render_pixels {codels : CodelMap} (hcodels : codels.isEmpty = false) (initial : Color) {codelSize : Nat}
    (hsize : 1 ≤ codelSize) :
    ∃ picture low high last shift, render codels initial codelSize = .ok picture ∧
      codels.extent? = some (low, high) ∧ Frames low high codels.recent ∧ codels.last? = some (last, shift) ∧
      (picture.width : Int) = (max high.x (last.x + 1) - low.x + 1) * codelSize ∧
      (picture.height : Int) = (max high.y (last.y + 1) - low.y + 1) * codelSize ∧
      ∀ u v : Nat, picture.pixel? u v = if u < picture.width ∧ v < picture.height then
          some (cell codels initial last (initial.shifted (shift + ⟨1, 0⟩)).pixel
            ⟨low.x + (u / codelSize : Nat), low.y + (v / codelSize : Nat)⟩)
        else none := by
  have hrecent : codels.recent ≠ [] := by
    rintro hnil
    rw [CodelMap.isEmpty, hnil] at hcodels
    cases hcodels
  obtain ⟨picture, low, high, last, shift, hdraws⟩ := exists_draws hrecent initial hsize
  have hpicture := hdraws.eq_grid hsize
  obtain ⟨p, hp, _⟩ := hdraws.frames.west
  have hholds := hdraws.frames.holds p hp
  have hcolumns : (((farCorner high last).x - low.x + 1).toNat : Int) = max high.x (last.x + 1) - low.x + 1 := by
    dsimp only [farCorner]
    omega
  have hrows : (((farCorner high last).y - low.y + 1).toNat : Int) = max high.y (last.y + 1) - low.y + 1 := by
    dsimp only [farCorner]
    omega
  refine ⟨picture, low, high, last, shift, hdraws.drawn, hdraws.extent, hdraws.frames, hdraws.ends, ?_, ?_, ?_⟩
  · rw [hpicture, ← hcolumns, ← Int.natCast_mul]
    rfl
  · rw [hpicture, ← hrows, ← Int.natCast_mul]
    rfl
  · intro u v
    rw [hpicture]
    exact pixel?_ofPixels u v

/-- A program that goes west and then south has its trap below its first codel. -/
theorem exists_render_pixels_westward :
    let codels := CodelMap.ofList [(⟨0, 0⟩, ⟨0, 0⟩), (⟨-1, 0⟩, ⟨1, 0⟩), (⟨-1, 1⟩, ⟨1, 1⟩)]
    codels.isEmpty = false ∧ ∃ picture, render codels ⟨0, 1⟩ 2 = .ok picture ∧ picture.width = 4 ∧ picture.height = 6 ∧
      picture.pixel? 3 0 = some (Color.pixel ⟨0, 1⟩) ∧ picture.pixel? 2 3 = some (Color.pixel ⟨1, 0⟩) := by
  intro codels
  have hcodels : codels.isEmpty = false := by decide +kernel
  have hcorners : codels.extent? = some (⟨-1, 0⟩, ⟨0, 1⟩) := by decide +kernel
  have hstop : codels.last? = some (⟨-1, 1⟩, ⟨1, 1⟩) := by decide +kernel
  obtain ⟨picture, low, high, last, shift, hrender, hextent, _, hlast, hwidth, hheight, hpixels⟩ :=
    exists_render_pixels hcodels ⟨0, 1⟩ (by decide : 1 ≤ 2)
  rw [hcorners, Option.some.injEq, Prod.mk.injEq] at hextent
  rw [hstop, Option.some.injEq, Prod.mk.injEq] at hlast
  obtain ⟨rfl, rfl⟩ := hextent
  obtain ⟨rfl, rfl⟩ := hlast
  have hw : picture.width = 4 := Int.ofNat.inj hwidth
  have hh : picture.height = 6 := Int.ofNat.inj hheight
  refine ⟨hcodels, picture, hrender, hw, hh, ?_, ?_⟩
  · rw [hpixels 3 0, hw, hh]
    decide +kernel
  · rw [hpixels 2 3, hw, hh]
    decide +kernel

end Picture

end CodelCurve
