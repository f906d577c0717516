import CodelCurve.Proofs.Picture.Reading
import CodelCurve.Proofs.Synthesis.Blocks

/-! The picture of a synthesized program determines the program. The codels lie along the walk of the curve, each with
the total shift up to its primitive, and the trap covers none of them; so the pixels along the walk are colours that
change by the shifts of the primitives, from which these are read back. -/

namespace CodelCurve

namespace Synthesis

/-- The colours of the codels along the walk. -/
def colors (s : Synthesis) (initial : Color) : List Color :=
  s.track.map fun c => initial.shifted ((s.execution.codels.get? c).getD .zero)

namespace Walks

variable {s : Synthesis} {vs : List Visit}

theorem mem_recent (h : s.Walks vs) (c : Position) : c ∈ s.execution.codels.recent ↔ c ∈ s.track := by
  rw [← h.recent, List.mem_reverse]

theorem recent_ne_nil (h : s.Walks vs) : s.execution.codels.recent ≠ [] := by
  intro hnil
  have hzero := congrArg List.length h.recent
  rw [hnil, h.length_track] at hzero
  cases hzero

end Walks

/-- The colours along the walk spell the program: read in any column and row of the squares, they change by the shifts
of the primitives, and from the changes the primitives are known again. -/
structure Spells (s : Synthesis) (picture : Picture) (low : Position) (codelSize : Nat) (colors : List Color) :
    Prop where
  read : ∀ i j, i < codelSize → j < codelSize → picture.read? codelSize low i j s.track = some colors
  length : colors.length = s.program.expanded.length
  change : ∀ (k : Nat) (hk : k + 1 < colors.length) (ho : k + 1 < s.program.expanded.length),
    colors[k].change colors[k + 1] = s.program.expanded[k + 1].shift
  decode : (Color.decode? colors).map (Op.init :: ·) = some s.program.expanded

end Synthesis

end CodelCurve
