import CodelCurve.Proofs.Curve.InducedPath

/-! How the walk along a curve ends. A curve of any order from one on ends as the first one does: around a corner, back,
around another one and on to the east, out of the last corner of the rectangle. Next to the end lie the cells of the
first of these corners, two rows further up, and no others. -/

namespace CodelCurve

namespace Curve

open Position

namespace Turtle

theorem follow_nil (t : Turtle) : t.follow [] = t := rfl

theorem follow_cons (t : Turtle) (c : Char) (rest : Path) : t.follow (c :: rest) = (t.step c).follow rest := rfl

theorem position_mem_cells (t : Turtle) (path : Path) : t.position ∈ t.cells path := by
  cases path <;> exact List.mem_cons_self

theorem position_follow_mem_cells (t : Turtle) (path rest : Path) :
    (t.follow path).position ∈ t.cells (path ++ rest) := by
  rw [cells_append]
  exact List.mem_append_right _ (position_mem_cells _ rest)

theorem cells_append_step (t : Turtle) (path : Path) (c : Char) :
    t.cells (path ++ [c]) = t.cells path ++ [((t.follow path).step c).position] :=
  cells_append_cons t path c []

theorem take_cells_append_step (t : Turtle) (path : Path) (c : Char) :
    (t.cells (path ++ [c])).take (path ++ [c]).length = t.cells path := by
  rw [cells_append_step, List.length_append]
  exact List.take_left' (length_cells t path)

end Turtle

/-- Of the cells that lead up to one, only the last touches it. -/
theorem Clear.getLast?_of_adjacent {cells rest : List Position} {p c : Position} (h : Clear (cells ++ p :: rest))
    (hc : c ∈ cells) (hadj : c.Adjacent p) : cells.getLast? = some c := by
  induction cells with
  | nil => cases hc
  | cons a cells ih =>
      cases cells with
      | nil => rw [List.mem_singleton.mp hc, List.getLast?_singleton]
      | cons b cells =>
          obtain ⟨_, hfar, hrest⟩ := h
          rcases List.mem_cons.mp hc with rfl | hc
          · exact absurd hadj (hfar p (by simp))
          · rw [List.getLast?_cons_cons]
            exact ih hrest hc

theorem suffix_path_bend (n : Nat) (turn : Turn) : (bend 2 3 1 turn).path <:+ (bend 2 3 (n + 1) turn).path := by
  induction n with
  | zero => exact List.suffix_refl _
  | succ n ih =>
      let near := bend 2 3 (n + 1) turn
      let far := bend 2 3 (n + 1) turn.other
      change (bend 2 3 1 turn).path <:+ (Course.stack turn (Course.row 3 near far) (Course.row 3 far near)).path
      rw [Course.path_stack, Course.path_row]
      exact (ih.trans (List.suffix_append _ _)).trans (List.suffix_append _ _)

theorem heading_follow_bend (n : Nat) (turn : Turn) (t : Turtle) :
    (t.follow (bend 2 3 n turn).path).heading = t.heading := by
  have hfollow := (traverses_bend n turn).follow (t.position.stepped t.heading (-1)) t.heading
  rw [stepped_stepped, Int.add_left_neg, stepped_zero] at hfollow
  exact (congrArg Turtle.heading hfollow :)

/-- The first curve up to the second cell of its first corner. -/
def toCorner : Path := ahead 12 ++ [Turn.clockwise.mark, 'F']

/-- The first curve from there on, but for the last two steps. -/
def fromCorner : Path := [Turn.clockwise.mark] ++ ahead 12 ++ corner .anticlockwise ++ ahead 10

theorem path_bend_one : (bend 2 3 1 .clockwise).path = toCorner ++ fromCorner ++ ['F'] ++ ['F'] := by decide

theorem heading_follow_toCorner (t : Turtle) : (t.follow toCorner).heading = t.heading.turned .clockwise := by
  cases t
  simp only [toCorner, Turtle.follow_append, Turtle.follow_cons, Turtle.follow_nil, follow_straight, Turtle.step_mark,
    Turtle.step_ahead]

theorem follow_fromCorner (p : Position) : Turtle.follow ⟨p, .south⟩ fromCorner = ⟨⟨p.x - 2, p.y + 2⟩, .east⟩ := by
  simp only [fromCorner, corner, Turtle.follow_append, Turtle.follow_cons, Turtle.follow_nil, follow_straight,
    Turtle.step_mark, Turtle.step_ahead, stepped_stepped]
  simp only [stepped, Heading.turned, Heading.clockwise, Heading.unit, Turtle.mk.injEq, Position.mk.injEq, and_true]
  omega

/-- The walk comes to a corner from the north, goes back and around the next corner, and then two steps more. -/
theorem exists_ending (n : Nat) : ∃ front p, generate (n + 1) = front ++ fromCorner ++ ['F'] ++ ['F'] ∧
    Turtle.start.follow front = ⟨p, .south⟩ := by
  obtain ⟨front, hfront⟩ := suffix_path_bend n .clockwise
  have hgenerate : generate (n + 1) = front ++ (bend 2 3 1 .clockwise).path := by rw [generate_succ, hfront]
  have heast : (Turtle.start.follow front).heading = .east := by
    have hend := heading_follow_generate (n + 1)
    rwa [hgenerate, Turtle.follow_append, heading_follow_bend] at hend
  have hsouth : (Turtle.start.follow (front ++ toCorner)).heading = .south := by
    rw [Turtle.follow_append, heading_follow_toCorner, heast]
    rfl
  refine ⟨front ++ toCorner, (Turtle.start.follow (front ++ toCorner)).position, ?_, ?_⟩
  · rw [hgenerate, path_bend_one]
    simp only [List.append_assoc]
  · rw [← hsouth]

/-- No cell of the walk along a curve lies beyond the one where it ends. -/
theorem le_getLast_cells {n : Nat} {c exit : Position} (hc : c ∈ Turtle.start.cells (generate (n + 1)))
    (hexit : (Turtle.start.cells (generate (n + 1))).getLast? = some exit) : c.x ≤ exit.x ∧ c.y ≤ exit.y := by
  have htraverses := traverses_bend (n + 1) .clockwise
  rw [← generate_succ] at htraverses
  have hpos : (0 : Int) < 3 ^ (n + 1) := Int.pow_pos (by decide)
  have hspans := htraverses.spans ⟨-1, 0⟩ .east
  have hwithin := hspans.within (by omega) (List.mem_cons_of_mem _ hc)
  have hlast := hspans.last
  have hpassage : passage ⟨-1, 0⟩ .east (generate (n + 1)) = ⟨-1, 0⟩ :: Turtle.start.cells (generate (n + 1)) := rfl
  rw [hpassage, List.getLast?_cons, hexit, Option.getD_some, Option.some.injEq] at hlast
  rw [hlast]
  simp only [along, offset, stepped, Heading.turned, Heading.clockwise, Heading.unit] at hwithin ⊢
  omega

/-- Cells that end on the way east, a step before the last corner of the rectangle around them: none but the last
touches that corner, and only the one behind it touches the last, but two rows above the corner there is a cell. -/
structure Ends (cells : List Position) (last : Position) : Prop where
  ends : cells.getLast? = some last
  within : ∀ c ∈ cells, c.x ≤ last.x + 1 ∧ c.y ≤ last.y
  exit : ⟨last.x + 1, last.y⟩ ∉ cells
  beside_exit : ∀ c ∈ cells, c.Adjacent ⟨last.x + 1, last.y⟩ → c = last
  beside_last : ∀ c ∈ cells, c.Adjacent last → c = ⟨last.x - 1, last.y⟩
  corner : ⟨last.x + 1, last.y - 2⟩ ∈ cells

theorem Ends.of_clear {cells : List Position} {last : Position}
    (hclear : Clear (cells ++ [last] ++ [⟨last.x + 1, last.y⟩])) (hbehind : cells.getLast? = some ⟨last.x - 1, last.y⟩)
    (hwithin : ∀ c ∈ cells ++ [last], c.x ≤ last.x + 1 ∧ c.y ≤ last.y) (hcorner : ⟨last.x + 1, last.y - 2⟩ ∈ cells) :
    Ends (cells ++ [last]) last where
  ends := List.getLast?_concat
  within := hwithin
  exit hexit := by
    have hdisjoint := (List.nodup_append.mp hclear.nodup).2.2
    exact hdisjoint _ hexit _ List.mem_cons_self rfl
  beside_exit c hc hadj := by
    have hlast := hclear.getLast?_of_adjacent hc hadj
    rw [List.getLast?_concat] at hlast
    exact (Option.some.inj hlast).symm
  beside_last c hc hadj := by
    rw [List.append_assoc] at hclear
    rcases List.mem_append.mp hc with hc | hc
    · have hlast := hclear.getLast?_of_adjacent hc hadj
      rw [hbehind] at hlast
      exact (Option.some.inj hlast).symm
    · rw [List.mem_singleton.mp hc] at hadj
      exact absurd hadj (by simp [Adjacent])
  corner := List.mem_append_left _ hcorner

/-- The cells of a curve that are left again end so. -/
theorem exists_ends_generate (n : Nat) :
    ∃ last, Ends ((Turtle.start.cells (generate (n + 1))).take (generate (n + 1)).length) last := by
  obtain ⟨front, p, hgenerate, hfront⟩ := exists_ending n
  let last : Position := ⟨p.x - 1, p.y + 2⟩
  have hbehind : Turtle.start.follow (front ++ fromCorner) = ⟨⟨last.x - 1, last.y⟩, .east⟩ := by
    rw [Turtle.follow_append, hfront, follow_fromCorner]
    simp only [last, Turtle.mk.injEq, Position.mk.injEq, and_true]
    omega
  have hlast : Turtle.start.follow (front ++ fromCorner ++ ['F']) = ⟨last, .east⟩ := by
    rw [Turtle.follow_append, hbehind, Turtle.follow_cons, Turtle.follow_nil, Turtle.step_ahead]
    simp only [stepped, Heading.unit, last, Turtle.mk.injEq, Position.mk.injEq, and_true]
    omega
  have hexit : ((Turtle.start.follow (front ++ fromCorner ++ ['F'])).step 'F').position = ⟨last.x + 1, last.y⟩ := by
    rw [hlast, Turtle.step_ahead]
    simp [stepped, Heading.unit]
  have hcells : Turtle.start.cells (front ++ fromCorner ++ ['F']) =
      Turtle.start.cells (front ++ fromCorner) ++ [last] := by
    have hposition : ((Turtle.start.follow (front ++ fromCorner)).step 'F').position = last := by
      rw [Turtle.follow_append] at hlast
      exact congrArg Turtle.position hlast
    rw [Turtle.cells_append_step, hposition]
  have hwalk : Turtle.start.cells (generate (n + 1)) =
      Turtle.start.cells (front ++ fromCorner) ++ [last] ++ [⟨last.x + 1, last.y⟩] := by
    rw [hgenerate, Turtle.cells_append_step, hexit, hcells]
  refine ⟨last, ?_⟩
  rw [hgenerate, Turtle.take_cells_append_step, hcells]
  refine Ends.of_clear ?_ ?_ (fun c hc => ?_) ?_
  · rw [← hwalk]
    exact clear_cells_generate (n + 1)
  · rw [Turtle.getLast?_cells, hbehind]
  · have hmem : c ∈ Turtle.start.cells (generate (n + 1)) := by
      rw [hwalk]
      exact List.mem_append_left _ hc
    have hend : (Turtle.start.cells (generate (n + 1))).getLast? = some ⟨last.x + 1, last.y⟩ := by
      rw [hwalk, List.getLast?_concat]
    exact le_getLast_cells hmem hend
  · have hmem := Turtle.position_follow_mem_cells Turtle.start front fromCorner
    rw [hfront] at hmem
    simpa [last] using hmem

end Curve

end CodelCurve
