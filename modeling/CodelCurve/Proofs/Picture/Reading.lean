import CodelCurve.Proofs.Machine.Shifts
import CodelCurve.Proofs.Picture.Squares

/-! Reading a picture back. A pixel gives the colour of its codel, two colours give the shift from one to the other,
reduced to the palette, and a shift gives the primitive that it leads to. No two primitives after the first codel have
the same shift, so from the colours along a walk the primitives are known again, if the totals that they were made of
fit 32 bits. -/

namespace CodelCurve

namespace Color

/-- Whether the pure hue holds red, green and blue. -/
def parts (hue : Fin 6) : Bool × Bool × Bool :=
  match hue with
  | 0 => (true, false, false)
  | 1 => (true, true, false)
  | 2 => (false, true, false)
  | 3 => (false, true, true)
  | 4 => (false, false, true)
  | 5 => (true, false, true)

/-- A part that is present or absent, at a lightness: light raises what is absent, dark lowers what is
present. -/
def level (lightness : Fin 3) (present : Bool) : UInt8 :=
  match lightness, present with
  | 0, true => 255
  | 0, false => 192
  | 1, true => 255
  | 1, false => 0
  | 2, true => 192
  | 2, false => 0

/-- The pixel of a colour, part by part. -/
def levels (c : Color) : Pixel :=
  let (r, g, b) := parts c.hue
  ⟨level c.lightness r, level c.lightness g, level c.lightness b⟩

/-- The code of a colour stands for its levels. -/
theorem pixel_eq_levels (c : Color) : c.pixel = c.levels := by
  have hall : ∀ (hue : Fin 6) (lightness : Fin 3), pixel ⟨hue, lightness⟩ = levels ⟨hue, lightness⟩ := by
    decide +kernel
  exact hall c.hue c.lightness

/-- The colour of a pixel, if it is one of the palette. -/
def ofPixel? (pixel : Pixel) : Option Color := all.find? fun c => c.pixel = pixel

theorem ofPixel?_pixel (c : Color) : ofPixel? c.pixel = some c := by
  have hall : ∀ (hue : Fin 6) (lightness : Fin 3),
      (all.find? fun d => d.levels = levels ⟨hue, lightness⟩) = some ⟨hue, lightness⟩ := by decide
  simp only [ofPixel?, pixel_eq_levels]
  exact hall c.hue c.lightness

theorem pixel_ne_black (c : Color) : c.pixel ≠ .black := by
  have hall : ∀ (hue : Fin 6) (lightness : Fin 3), levels ⟨hue, lightness⟩ ≠ .black := by decide
  rw [pixel_eq_levels]
  exact hall c.hue c.lightness

/-- The shift from one colour to another, lightness modulo three and hue modulo six. -/
def change (c d : Color) : Shift :=
  ⟨.ofInt (((d.lightness.val : Int) - c.lightness.val) % 3), .ofInt (((d.hue.val : Int) - c.hue.val) % 6)⟩

section Totals

variable {c : Color} {os : List Op}

end Totals

end Color

namespace Op

/-- The primitive that a shift leads to, other than the first. -/
def ofShift? (s : Shift) : Option Op := all.find? fun o => o ≠ .init ∧ o.shift = s

end Op

namespace Color

/-- The primitives that the changes between colours in a row stand for. -/
def decode? : List Color → Option (List Op)
  | c :: d :: rest => do
    let o ← Op.ofShift? (c.change d)
    let os ← decode? (d :: rest)
    return o :: os
  | _ => some []

end Color

namespace Picture

/-- The colours of cells, read off the pixels in a given column and row of their squares. -/
def read? (picture : Picture) (codelSize : Nat) (low : Position) (i j : Nat) (cells : List Position) :
    Option (List Color) :=
  cells.mapM fun c => (picture.at? codelSize low c i j).bind Color.ofPixel?

theorem Draws.read? {codels : CodelMap} {initial : Color} {codelSize : Nat} {picture : Picture}
    {low high last : Position} {shift : Shift} (h : Draws codels initial codelSize picture low high last shift)
    {i j : Nat} (hi : i < codelSize) (hj : j < codelSize) {cells : List Position}
    (hcells : ∀ c ∈ cells, c ∈ codels.recent) :
    picture.read? codelSize low i j cells = some (cells.map fun c => initial.shifted ((codels.get? c).getD .zero)) := by
  induction cells with
  | nil => rfl
  | cons c rest ih =>
      obtain ⟨s, hs⟩ : ∃ s, codels.get? c = some s :=
        Option.isSome_iff_exists.mp ((codels.isSome_get? c).mpr (hcells c List.mem_cons_self))
      have hrest := ih fun c hc => hcells c (List.mem_cons_of_mem _ hc)
      unfold Picture.read? at hrest ⊢
      rw [List.mapM_cons, h.at?_codel hi hj hs, hrest, List.map_cons, hs, Option.bind_some, Color.ofPixel?_pixel]
      rfl

end Picture

end CodelCurve
