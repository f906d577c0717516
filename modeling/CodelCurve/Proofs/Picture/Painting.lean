import CodelCurve.Picture.Basic
import Mathlib.Logic.Function.Basic

/-! Painting squares. A picture is the table of a function from columns and rows to pixels, and putting pixels in rows
changes the function in a rectangle and nowhere else. The squares of different positions are rectangles that do not
meet, so on a canvas, which is the table of a function from positions to colours, painting a square changes the colour
of its position and of no other. Codels lie on different positions, as do the squares of the trap, so each square is
painted at most once and in the end has the colour of its codel, else that of the trap, else white. -/

namespace CodelCurve

namespace Picture

/-! ### Pixels -/

theorem setIfInBounds_ofFn {α : Type} {n : Nat} (f : Fin n → α) (i : Nat) (a : α) :
    (Array.ofFn f).setIfInBounds i a = .ofFn fun k => if i = k then a else f k := by
  apply Array.ext
  · simp
  · intro k hk _
    rw [Array.getElem_setIfInBounds (by simpa using hk), Array.getElem_ofFn, Array.getElem_ofFn]

/-- The picture in which each pixel has the colour of its column and row. -/
def ofPixels (width height : Nat) (color : Nat → Nat → Pixel) : Picture :=
  ⟨width, height, .ofFn fun k : Fin (width * height) => color (k % width) (k / width), Array.size_ofFn⟩

theorem div_square {codelSize i : Nat} (hi : i < codelSize) (column : Nat) :
    (column * codelSize + i) / codelSize = column := by
  rw [Nat.mul_comm, Nat.mul_add_div (by omega), Nat.div_eq_of_lt hi, Nat.add_zero]

theorem mod_square {codelSize i : Nat} (hi : i < codelSize) (column : Nat) :
    (column * codelSize + i) % codelSize = i := by
  rw [Nat.mul_comm, Nat.mul_add_mod, Nat.mod_eq_of_lt hi]

section OfPixels

variable {width height : Nat} {f g : Nat → Nat → Pixel}

theorem ofPixels_congr (h : ∀ u < width, ∀ v < height, f u v = g u v) :
    ofPixels width height f = ofPixels width height g := by
  unfold ofPixels
  congr
  funext k
  have hwidth : 0 < width := Nat.pos_of_mul_pos_right (Nat.zero_lt_of_lt k.isLt)
  exact h _ (Nat.mod_lt _ hwidth) _ (Nat.div_lt_of_lt_mul k.isLt)

theorem pixel?_ofPixels (u v : Nat) :
    (ofPixels width height f).pixel? u v = if u < width ∧ v < height then some (f u v) else none := by
  have hpixel : (ofPixels width height f).pixel? u v =
      if u < width then (Array.ofFn fun k : Fin (width * height) => f (k % width) (k / width))[v * width + u]?
      else none := rfl
  rw [hpixel]
  by_cases hu : u < width
  · have hrow : v * width + u < width * height ↔ v < height := by
      rw [Nat.mul_comm width, ← Nat.div_lt_iff_lt_mul (by omega), div_square hu]
    by_cases hv : v < height
    · rw [if_pos hu, Array.getElem?_ofFn, dif_pos (hrow.mpr hv), mod_square hu, div_square hu, if_pos ⟨hu, hv⟩]
    · rw [if_pos hu, Array.getElem?_ofFn, dif_neg (mt hrow.mp hv), if_neg fun h => hv h.2]
  · rw [if_neg hu, if_neg fun h => hu h.1]

theorem put_ofPixels (a b : Nat) (pixel : Pixel) :
    (ofPixels width height f).put a b pixel =
      ofPixels width height fun u v => if u = a ∧ v = b then pixel else f u v := by
  by_cases ha : a < width
  · have hplace : ∀ k, b * width + a = k ↔ k % width = a ∧ k / width = b := by
      intro k
      constructor
      · rintro rfl
        exact ⟨mod_square ha b, div_square ha b⟩
      · rintro ⟨rfl, rfl⟩
        exact Nat.div_add_mod' k width
    rw [ofPixels, put, if_pos ha, ofPixels]
    congr
    rw [setIfInBounds_ofFn]
    simp only [hplace]
  · rw [ofPixels, put, if_neg ha]
    -- There is no such column, so no pixel has the new colour.
    exact ofPixels_congr fun u hu v _ => (if_neg (by omega)).symm

theorem putRow_ofPixels (left row : Nat) (pixel : Pixel) (count : Nat) :
    (ofPixels width height f).putRow left row pixel count =
      ofPixels width height fun u v => if v = row ∧ left ≤ u ∧ u < left + count then pixel else f u v := by
  induction count with
  | zero =>
      apply ofPixels_congr
      intro u _ v _
      rw [if_neg (by omega)]
  | succ count ih =>
      have hlast : (ofPixels width height f).putRow left row pixel (count + 1) =
          ((ofPixels width height f).putRow left row pixel count).put (left + count) row pixel :=
        Nat.fold_succ ..
      rw [hlast, ih, put_ofPixels]
      apply ofPixels_congr
      intro u _ v _
      grind

theorem putRows_ofPixels (left top : Nat) (pixel : Pixel) (columns rows : Nat) :
    (ofPixels width height f).putRows left top pixel columns rows = ofPixels width height fun u v =>
      if (left ≤ u ∧ u < left + columns) ∧ top ≤ v ∧ v < top + rows then pixel else f u v := by
  induction rows with
  | zero =>
      apply ofPixels_congr
      intro u _ v _
      rw [if_neg (by omega)]
  | succ rows ih =>
      have hlast : (ofPixels width height f).putRows left top pixel columns (rows + 1) =
          ((ofPixels width height f).putRows left top pixel columns rows).putRow left (top + rows) pixel columns :=
        Nat.fold_succ ..
      rw [hlast, ih, putRow_ofPixels]
      apply ofPixels_congr
      intro u _ v _
      grind

end OfPixels

/-! ### Squares -/

/-- The picture of the positions from one corner to another, each a square in its colour. -/
def grid (codelSize : Nat) (low far : Position) (color : Position → Pixel) : Picture :=
  ofPixels ((far.x - low.x + 1).toNat * codelSize) ((far.y - low.y + 1).toNat * codelSize)
    fun u v => color ⟨low.x + (u / codelSize : Nat), low.y + (v / codelSize : Nat)⟩

end Picture

namespace Canvas

open Picture (Shows grid)

/-- The canvas on which each square has the colour of its position. -/
def ofColors (codelSize : Nat) (low far : Position) (color : Position → Pixel) : Canvas :=
  ⟨grid codelSize low far color, low, far, codelSize⟩

theorem blank_eq_ofColors (codelSize : Nat) (low far : Position) :
    blank low far codelSize = ofColors codelSize low far fun _ => .white := by
  have hreplicate : ∀ n, Array.replicate n Pixel.white = .ofFn fun _ : Fin n => Pixel.white := by
    intro n
    apply Array.ext <;> simp
  simp only [blank, ofColors, grid, Picture.filled, Picture.ofPixels, hreplicate]

/-- The pixels of a square are those whose column and row, counted in squares, are its own. -/
theorem mem_square_iff {codelSize : Nat} (hsize : 0 < codelSize) (column u : Nat) :
    column * codelSize ≤ u ∧ u < column * codelSize + codelSize ↔ u / codelSize = column := by
  rw [Nat.div_eq_iff hsize]
  omega

theorem paint_ofColors {codelSize : Nat} (hsize : 0 < codelSize) (low far : Position) (color : Position → Pixel)
    (p : Position) (pixel : Pixel) :
    (ofColors codelSize low far color).paint p pixel =
      ofColors codelSize low far (Function.update color p pixel) := by
  obtain ⟨x, y⟩ := p
  by_cases hp : Shows low far ⟨x, y⟩
  · obtain ⟨hwest, hnorth, _, _⟩ := id hp
    rw [ofColors, paint, if_pos hp, ofColors, grid, grid]
    dsimp only
    rw [Picture.putRows_ofPixels]
    congr
    funext u v
    have hsquare : ((x - low.x).toNat * codelSize ≤ u ∧ u < (x - low.x).toNat * codelSize + codelSize) ∧
        (y - low.y).toNat * codelSize ≤ v ∧ v < (y - low.y).toNat * codelSize + codelSize ↔
        (⟨low.x + (u / codelSize : Nat), low.y + (v / codelSize : Nat)⟩ : Position) = ⟨x, y⟩ := by
      rw [mem_square_iff hsize, mem_square_iff hsize, Position.mk.injEq]
      generalize u / codelSize = column, v / codelSize = row
      dsimp only at hwest hnorth
      omega
    simp only [hsquare, Function.update_apply]
  · rw [ofColors, paint, if_neg hp, ofColors]
    congr 1
    apply Picture.ofPixels_congr
    intro u hu v hv
    -- The squares of the canvas are those of positions between the corners.
    have hcolumn : u / codelSize < (far.x - low.x + 1).toNat := (Nat.div_lt_iff_lt_mul hsize).mpr hu
    have hrow : v / codelSize < (far.y - low.y + 1).toNat := (Nat.div_lt_iff_lt_mul hsize).mpr hv
    generalize u / codelSize = column, v / codelSize = row at hcolumn hrow ⊢
    rw [Function.update_of_ne]
    rintro hsame
    rw [← hsame] at hp
    refine hp ⟨?_, ?_, ?_, ?_⟩ <;> dsimp only <;> omega

/-- What becomes of colours when squares are painted in turn. -/
def painted (color : Position → Pixel) (squares : List (Position × Pixel)) : Position → Pixel :=
  squares.foldl (fun color s => Function.update color s.1 s.2) color

theorem paintAll_ofColors {codelSize : Nat} (hsize : 0 < codelSize) (low far : Position) (color : Position → Pixel)
    (squares : List (Position × Pixel)) :
    (ofColors codelSize low far color).paintAll squares = ofColors codelSize low far (painted color squares) := by
  induction squares generalizing color with
  | nil => rfl
  | cons s rest ih =>
      show ((ofColors codelSize low far color).paint s.1 s.2).paintAll rest = _
      rw [paint_ofColors hsize, ih]
      rfl

theorem painted_of_not_mem {squares : List (Position × Pixel)} {p : Position} (hp : p ∉ squares.map Prod.fst)
    (color : Position → Pixel) : painted color squares p = color p := by
  induction squares generalizing color with
  | nil => rfl
  | cons s rest ih =>
      rw [List.map_cons, List.mem_cons, not_or] at hp
      show painted (Function.update color s.1 s.2) rest p = _
      rw [ih hp.2, Function.update_of_ne hp.1]

/-- A square that is painted once keeps that colour. -/
theorem painted_of_mem {squares : List (Position × Pixel)} (hnodup : (squares.map Prod.fst).Nodup) {p : Position}
    {pixel : Pixel} (hmem : (p, pixel) ∈ squares) (color : Position → Pixel) : painted color squares p = pixel := by
  induction squares generalizing color with
  | nil => cases hmem
  | cons s rest ih =>
      rw [List.map_cons, List.nodup_cons] at hnodup
      show painted (Function.update color s.1 s.2) rest p = _
      obtain rfl | hmem := List.mem_cons.mp hmem
      · rw [painted_of_not_mem hnodup.1, Function.update_self]
      · exact ih hnodup.2 hmem _

end Canvas

namespace Picture

/-- The codels of the trap in the colour that a push leads to. -/
def trapCells (last : Position) : List Position :=
  [⟨last.x + 1, last.y - 1⟩, ⟨last.x + 1, last.y⟩, ⟨last.x + 1, last.y + 1⟩]

/-- The black codels next to the trap. -/
def blackCells (last : Position) : List Position :=
  [⟨last.x, last.y - 1⟩, ⟨last.x, last.y + 1⟩, ⟨last.x + 1, last.y - 2⟩]

/-- The colour of a square: that of its codel, else that of the trap, else white. -/
def cell (codels : CodelMap) (initial : Color) (last : Position) (push : Pixel) (p : Position) : Pixel :=
  match codels.get? p with
  | some s => (initial.shifted s).pixel
  | none => if p ∈ trapCells last then push else if p ∈ blackCells last then .black else .white

theorem nodup_trap (last : Position) (push : Pixel) : ((trap last push).map Prod.fst).Nodup := by
  simp only [trap, List.map_cons, List.map_nil, List.nodup_cons, List.mem_cons, Position.mk.injEq, List.not_mem_nil,
    List.nodup_nil, or_false, not_false_eq_true, and_true]
  omega

section Trap

variable {codels : CodelMap} {initial : Color} {last c : Position} {push pixel : Pixel}

theorem cell_of_mem_trap (hfree : codels.get? c = none) (hmem : (c, pixel) ∈ trap last push) :
    cell codels initial last push c = pixel := by
  -- The black squares lie apart from those of the trap.
  have hbeside : last.x ≠ last.x + 1 := by omega
  have habove : last.y - 2 ≠ last.y := by omega
  have hacross : last.y - 2 ≠ last.y + 1 := by omega
  simp only [trap, List.mem_cons, Prod.mk.injEq, List.not_mem_nil, or_false] at hmem
  rw [cell, hfree]
  rcases hmem with ⟨rfl, rfl⟩ | ⟨rfl, rfl⟩ | ⟨rfl, rfl⟩ | ⟨rfl, rfl⟩ | ⟨rfl, rfl⟩ | ⟨rfl, rfl⟩ <;>
    simp [trapCells, blackCells, hbeside, habove, hacross]

theorem cell_of_not_mem_trap (hfree : codels.get? c = none) (hc : c ∉ (trap last push).map Prod.fst) :
    cell codels initial last push c = .white := by
  simp only [trap, List.map_cons, List.map_nil, List.mem_cons, List.not_mem_nil, or_false, not_or] at hc
  rw [cell, hfree]
  simp [trapCells, blackCells, hc]

end Trap

/-- Painting the codels and then the trap, where there are no codels, colours every square. -/
theorem painted_eq_cell (codels : CodelMap) (initial : Color) (last : Position) (push : Pixel) :
    Canvas.painted (Canvas.painted (fun _ => .white) (codels.toList.map fun c => (c.1, (initial.shifted c.2).pixel)))
      ((trap last push).filter fun t => (codels.get? t.1).isNone) = cell codels initial last push := by
  have hkeys : (codels.toList.map fun c => (c.1, (initial.shifted c.2).pixel)).map Prod.fst = codels.recent.reverse := by
    rw [List.map_map]
    exact codels.map_fst_toList
  have hfree : (((trap last push).filter fun t => (codels.get? t.1).isNone).map Prod.fst).Nodup :=
    (nodup_trap last push).sublist (List.filter_sublist.map _)
  funext p
  cases hget : codels.get? p with
  | some s =>
      -- The trap spares the codel, which is painted once.
      have hspared : p ∉ ((trap last push).filter fun t => (codels.get? t.1).isNone).map Prod.fst := by
        intro hp
        obtain ⟨t, ht, rfl⟩ := List.mem_map.mp hp
        have hnone := (List.mem_filter.mp ht).2
        rw [hget] at hnone
        cases hnone
      rw [Canvas.painted_of_not_mem hspared, cell, hget]
      refine Canvas.painted_of_mem ?_ (List.mem_map.mpr ⟨(p, s), codels.mem_toList.mpr hget, rfl⟩) _
      rw [hkeys]
      exact (List.reverse_perm _).nodup_iff.mpr codels.nodup
  | none =>
      by_cases hp : p ∈ (trap last push).map Prod.fst
      · obtain ⟨⟨p, pixel⟩, hmem, rfl⟩ := List.mem_map.mp hp
        rw [cell_of_mem_trap hget hmem]
        exact Canvas.painted_of_mem hfree (List.mem_filter.mpr ⟨hmem, by rw [hget]; rfl⟩) _
      · rw [cell_of_not_mem_trap hget hp, Canvas.painted_of_not_mem, Canvas.painted_of_not_mem]
        · rw [hkeys, List.mem_reverse, ← codels.isSome_get?, hget]
          simp
        · exact fun hmem => hp ((List.filter_sublist.map _).subset hmem)

end Picture

end CodelCurve
