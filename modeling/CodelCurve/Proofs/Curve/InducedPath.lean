import CodelCurve.Proofs.Curve.Course
import Mathlib.Tactic.Ring

/-! The walk along a curve as an induced path of the grid: no cell is visited twice, and two cells touch only if
they follow each other. A bend of any order leads through a rectangle from one corner to the opposite one. Three
such rectangles in a row, or three rows, are a single cell apart, and the walk passes each gap once, straight
across; the nine rectangles of a bend of the next order therefore make one again. -/

namespace CodelCurve

namespace Curve

open Position

/-- A list of cells is an induced path of the grid: its cells are distinct, and two of them are neighbours just
if one follows the other. -/
structure InducedPath (cells : List Position) : Prop where
  nodup : cells.Nodup
  adjacent_iff : ∀ (i j : Nat) (hi : i < cells.length) (hj : j < cells.length),
    (cells[i]).Adjacent cells[j] ↔ i + 1 = j ∨ j + 1 = i

theorem InducedPath.take {cells : List Position} (h : InducedPath cells) (n : Nat) : InducedPath (cells.take n) := by
  refine ⟨h.nodup.sublist (List.take_sublist _ _), fun i j hi hj => ?_⟩
  rw [List.length_take] at hi hj
  rw [List.getElem_take, List.getElem_take]
  exact h.adjacent_iff i j (by omega) (by omega)

/-- No cell comes twice, and none touches a later one but the next. -/
def Clear : List Position → Prop
  | [] => True
  | p :: rest => p ∉ rest ∧ (∀ q ∈ rest.tail, ¬ p.Adjacent q) ∧ Clear rest

namespace Clear

variable {A B : List Position}

theorem nodup (hA : Clear A) : A.Nodup := by
  induction A with
  | nil => exact List.nodup_nil
  | cons p rest ih => exact List.nodup_cons.mpr ⟨hA.1, ih hA.2.2⟩

theorem tail (hA : Clear A) : Clear A.tail := by
  cases A with
  | nil => trivial
  | cons p rest => exact hA.2.2

/-- Two clear lists join to one if they touch at most where they meet. -/
theorem append (hA : Clear A) (hB : Clear B) (hdisjoint : ∀ p ∈ A, p ∉ B)
    (hinner : ∀ p ∈ A.dropLast, ∀ q ∈ B, ¬ p.Adjacent q) (houter : ∀ p ∈ A, ∀ q ∈ B.tail, ¬ p.Adjacent q) :
    Clear (A ++ B) := by
  induction A with
  | nil => exact hB
  | cons p rest ih =>
      obtain ⟨hmem, hfar, hrest⟩ := hA
      have hjoined : Clear (rest ++ B) := by
        refine ih hrest (fun q hq => hdisjoint q (List.mem_cons_of_mem _ hq)) (fun q hq => ?_)
          (fun q hq => houter q (List.mem_cons_of_mem _ hq))
        cases rest with
        | nil => cases hq
        | cons r rest => exact hinner q (List.mem_cons_of_mem _ hq)
      refine ⟨?_, ?_, hjoined⟩
      · intro h
        rcases List.mem_append.mp h with h | h
        · exact hmem h
        · exact hdisjoint p List.mem_cons_self h
      · intro q hq
        cases rest with
        | nil => exact houter p List.mem_cons_self q hq
        | cons r rest =>
            rcases List.mem_append.mp hq with hq | hq
            · exact hfar q hq
            · exact hinner p List.mem_cons_self q hq

/-- Two clear lists on the two sides of a line, joined straight across a cell of the line. -/
theorem cross (hA : Clear A) (hB : Clear B) {gap : Position} {h : Heading}
    (hlast : A.getLast? = some (gap.stepped h (-1))) (hfirst : B.head? = some (gap.stepped h 1))
    (hbehind : ∀ p ∈ A, p.along h < gap.along h) (hbeyond : ∀ q ∈ B, gap.along h < q.along h) :
    Clear (A ++ gap :: B) := by
  obtain ⟨rest, rfl⟩ : ∃ rest, B = gap.stepped h 1 :: rest := by
    cases B with
    | nil => cases hfirst
    | cons q rest => exact ⟨rest, by rw [Option.some.inj hfirst]⟩
  have hgap : Clear (gap :: gap.stepped h 1 :: rest) := by
    refine ⟨fun hmem => absurd (hbeyond gap hmem) (Int.lt_irrefl _), fun q hq hadj => ?_, hB⟩
    have heq := hadj.eq_stepped (hbeyond q (List.mem_cons_of_mem _ hq))
    exact hB.1 (heq ▸ hq)
  have happart : ∀ p ∈ A, ∀ q ∈ gap.stepped h 1 :: rest, ¬ p.Adjacent q := by
    intro p hp q hq hadj
    have := hadj.along_le h
    have := hbehind p hp
    have := hbeyond q hq
    omega
  refine hA.append hgap (fun p hp hmem => ?_) (fun p hp q hq hadj => ?_) happart
  · rcases List.mem_cons.mp hmem with rfl | hmem
    · exact absurd (hbehind p hp) (Int.lt_irrefl _)
    · exact absurd (Int.lt_trans (hbehind p hp) (hbeyond p hmem)) (Int.lt_irrefl _)
  · have hpA := List.dropLast_subset A hp
    rcases List.mem_cons.mp hq with rfl | hq
    · -- the last cell behind the line is the only one that touches the gap, and it comes once
      have heq : q = p.stepped h 1 := hadj.eq_stepped (hbehind p hpA)
      rw [heq, stepped_stepped, Int.add_right_neg, stepped_zero] at hlast
      obtain ⟨init, rfl⟩ := List.getLast?_eq_some_iff.mp hlast
      rw [List.dropLast_concat] at hp
      exact (List.nodup_append.mp hA.nodup).2.2 p hp p List.mem_cons_self rfl
    · exact happart p hpA q hq hadj

theorem not_adjacent (hA : Clear A) {i j : Nat} (hij : i + 2 ≤ j) (hj : j < A.length) :
    ¬ (A[i]).Adjacent A[j] := by
  induction A generalizing i j with
  | nil => cases hj
  | cons p rest ih =>
      obtain ⟨j, rfl⟩ : ∃ k, j = k + 1 := ⟨j - 1, by omega⟩
      rw [List.length_cons] at hj
      cases i with
      | succ i => exact ih hA.2.2 (by omega) (by omega)
      | zero =>
          refine hA.2.1 _ ?_
          rw [List.mem_iff_getElem]
          exact ⟨j - 1, by rw [List.length_tail]; omega, by
            rw [List.getElem_tail, List.getElem_cons_succ]
            congr 1
            omega⟩

/-- A clear list of cells each next to the one before is an induced path. -/
theorem inducedPath (hA : Clear A)
    (hnext : ∀ (i : Nat) (hi : i + 1 < A.length), (A[i]).Adjacent A[i + 1]) : InducedPath A := by
  refine ⟨hA.nodup, fun i j hi hj => ⟨fun hadj => ?_, fun h => ?_⟩⟩
  · rcases Nat.lt_trichotomy i j with hlt | rfl | hlt
    · by_cases hij : i + 1 = j
      · exact .inl hij
      · exact absurd hadj (hA.not_adjacent (by omega) hj)
    · unfold Adjacent at hadj
      omega
    · by_cases hji : j + 1 = i
      · exact .inr hji
      · exact absurd hadj.symm (hA.not_adjacent (by omega) hi)
  · rcases h with rfl | rfl
    · exact hnext i hj
    · exact (hnext j hi).symm

end Clear

/-- Cells that lead through a rectangle from one corner to the opposite one. -/
structure Spans (cells : List Position) (p q : Position) : Prop where
  clear : Clear cells
  first : cells.head? = some p
  last : cells.getLast? = some q
  between : ∀ c ∈ cells, c.Between p q

/-- The cells of a rectangle, measured from the corner where they begin. -/
theorem Spans.within {cells : List Position} {p : Position} {h : Heading} {t : Turn} {m n : Int}
    (hcells : Spans cells p (p.offset h t m n)) (hm : 0 ≤ m) {c : Position} (hc : c ∈ cells) :
    p.along h ≤ c.along h ∧ c.along h ≤ p.along h + m ∧
      p.along (h.turned t) + min 0 n ≤ c.along (h.turned t) ∧
      c.along (h.turned t) ≤ p.along (h.turned t) + max 0 n := by
  have hbetween := (between_iff h t).mp (hcells.between c hc)
  rw [along_offset, along_turned_offset] at hbetween
  unfold Amid at hbetween
  omega

theorem between_offset {c p : Position} {h : Heading} {t : Turn} {m n : Int}
    (hahead : p.along h ≤ c.along h ∧ c.along h ≤ p.along h + m)
    (haside : p.along (h.turned t) ≤ c.along (h.turned t) ∧ c.along (h.turned t) ≤ p.along (h.turned t) + n) :
    c.Between p (p.offset h t m n) := by
  rw [between_iff h t, along_offset, along_turned_offset]
  unfold Amid
  omega

/-- Three rectangles in the direction of a heading, with one cell between each two: the middle one is crossed
back to the side that the first began on. -/
theorem Spans.serpentine {A B C : List Position} {p q r : Position} {h : Heading} {t : Turn} {m n : Int}
    (hm : 0 ≤ m) (hn : 0 ≤ n) (hA : Spans A p (p.offset h t m n))
    (hq : q = (p.offset h t m n).stepped h 2) (hB : Spans B q (q.offset h t m (-n)))
    (hr : r = (q.offset h t m (-n)).stepped h 2) (hC : Spans C r (r.offset h t m n)) :
    Spans (A ++ (p.offset h t m n).stepped h 1 :: B ++ (q.offset h t m (-n)).stepped h 1 :: C) p
      (p.offset h t (3 * m + 4) n) := by
  have hback : ∀ x : Position, (x.stepped h 1).stepped h (-1) = x := by
    intro x
    rw [stepped_stepped, Int.add_right_neg, stepped_zero]
  have honward : ∀ x : Position, (x.stepped h 1).stepped h 1 = x.stepped h 2 := fun x => stepped_stepped x h 1 1
  have hqh : q.along h = p.along h + m + 2 := by rw [hq, along_stepped, along_offset]
  have hqv : q.along (h.turned t) = p.along (h.turned t) + n := by
    rw [hq, along_turned_stepped, along_turned_offset]
  have hrh : r.along h = q.along h + m + 2 := by rw [hr, along_stepped, along_offset]
  have hrv : r.along (h.turned t) = p.along (h.turned t) := by
    rw [hr, along_turned_stepped, along_turned_offset, hqv]
    omega
  -- The rectangles lie one behind the other along the heading, with a line between them that only one cell crosses.
  have hAB : Clear (A ++ (p.offset h t m n).stepped h 1 :: B) := by
    refine hA.clear.cross hB.clear (by rw [hback, hA.last]) (by rw [honward, ← hq, hB.first])
      (fun c hc => ?_) (fun c hc => ?_)
    · have := hA.within hm hc
      rw [along_stepped, along_offset]
      omega
    · have := hB.within hm hc
      rw [along_stepped, along_offset]
      omega
  have hlastAB : (A ++ (p.offset h t m n).stepped h 1 :: B).getLast? = some (q.offset h t m (-n)) := by
    rw [List.getLast?_append, List.getLast?_cons, hB.last]
    rfl
  refine ⟨?_, ?_, ?_, ?_⟩
  · refine hAB.cross hC.clear (by rw [hback, hlastAB]) (by rw [honward, ← hr, hC.first])
      (fun c hc => ?_) (fun c hc => ?_)
    · rw [along_stepped, along_offset]
      rcases List.mem_append.mp hc with hc | hc
      · have := hA.within hm hc
        omega
      · rcases List.mem_cons.mp hc with rfl | hc
        · rw [along_stepped, along_offset]
          omega
        · have := hB.within hm hc
          omega
    · have := hC.within hm hc
      rw [along_stepped, along_offset]
      omega
  · rw [List.append_assoc, List.head?_append, hA.first]
    rfl
  · have hexit : r.offset h t m n = p.offset h t (3 * m + 4) n := by
      refine eq_of_along h t ?_ ?_
      · rw [along_offset, along_offset]
        omega
      · rw [along_turned_offset, along_turned_offset, hrv]
    rw [List.getLast?_append, List.getLast?_cons, hC.last, hexit]
    rfl
  · intro c hc
    simp only [List.mem_append, List.mem_cons] at hc
    rcases hc with (hc | rfl | hc) | rfl | hc
    · have := hA.within hm hc
      exact between_offset (by omega) (by omega)
    · refine between_offset ?_ ?_
      · rw [along_stepped, along_offset]
        omega
      · rw [along_turned_stepped, along_turned_offset]
        omega
    · have := hB.within hm hc
      exact between_offset (by omega) (by omega)
    · refine between_offset ?_ ?_
      · rw [along_stepped, along_offset]
        omega
      · rw [along_turned_stepped, along_turned_offset]
        omega
    · have := hC.within hm hc
      exact between_offset (by omega) (by omega)

/-- The same with the rectangles to a side of the heading. -/
theorem Spans.serpentine_aside {A B C : List Position} {p q r : Position} {h : Heading} {t : Turn} {m n : Int}
    (hm : 0 ≤ m) (hn : 0 ≤ n) (hA : Spans A p (p.offset h t m n))
    (hq : q = (p.offset h t m n).stepped (h.turned t) 2) (hB : Spans B q (q.offset h t (-m) n))
    (hr : r = (q.offset h t (-m) n).stepped (h.turned t) 2) (hC : Spans C r (r.offset h t m n)) :
    Spans (A ++ (p.offset h t m n).stepped (h.turned t) 1 :: B ++
      (q.offset h t (-m) n).stepped (h.turned t) 1 :: C) p (p.offset h t m (3 * n + 4)) := by
  have hturn : ∀ (x : Position) (i j : Int), x.offset h t i j = x.offset (h.turned t) t.other j i :=
    fun x i j => (offset_turned x h t j i).symm
  simp only [hturn] at hA hq hB hr hC ⊢
  exact Spans.serpentine hn hm hA hq hB hr hC

/-! ### Walks through rectangles -/

namespace Turtle

theorem cells_append_cons (t : Turtle) (p : Path) (c : Char) (q : Path) :
    t.cells (p ++ c :: q) = t.cells p ++ ((t.follow p).step c).cells q := by
  induction p generalizing t with
  | nil => rfl
  | cons d rest ih => simp only [List.cons_append, cells, ih, follow, List.foldl_cons]

theorem getLast?_cells (t : Turtle) (path : Path) : (t.cells path).getLast? = some (t.follow path).position := by
  induction path generalizing t with
  | nil => rfl
  | cons c rest ih =>
      rw [cells, List.getLast?_cons, ih]
      rfl

theorem adjacent_cells (t : Turtle) (path : Path) (i : Nat) (hi : i + 1 < (t.cells path).length) :
    ((t.cells path)[i]).Adjacent (t.cells path)[i + 1] := by
  induction path generalizing t i with
  | nil => exact absurd hi (by simp [cells])
  | cons c rest ih =>
      cases i with
      | succ i => exact ih (t.step c) i (by simpa [cells] using hi)
      | zero => cases rest <;> exact adjacent_stepped t.position _

theorem step_ahead (p : Position) (h : Heading) : step ⟨p, h⟩ 'F' = ⟨p.stepped h 1, h⟩ := rfl

theorem step_mark (p : Position) (h : Heading) (t : Turn) :
    step ⟨p, h⟩ t.mark = ⟨p.stepped (h.turned t) 1, h.turned t⟩ := by
  rw [step, Heading.rotated_mark]

end Turtle

/-- The cells of a path that is entered by a step from a given cell, with that cell. -/
def passage (entry : Position) (h : Heading) (path : Path) : List Position :=
  entry :: Turtle.cells ⟨entry.stepped h 1, h⟩ path

/-- A path leads from an entry through a rectangle of given length and width to the opposite corner, and leaves
it with the heading it came with. -/
structure Traverses (path : Path) (t : Turn) (m n : Int) : Prop where
  spans : ∀ (entry : Position) (h : Heading), Spans (passage entry h path) entry (entry.offset h t m n)
  follow : ∀ (entry : Position) (h : Heading),
    Turtle.follow ⟨entry.stepped h 1, h⟩ path = ⟨entry.offset h t m n, h⟩

theorem passage_ahead {entry exit : Position} {h h' : Heading} {path : Path}
    (hfollow : Turtle.follow ⟨entry.stepped h 1, h⟩ path = ⟨exit, h'⟩) (next : Path) :
    passage entry h (path ++ ahead 3 ++ next) =
      passage entry h path ++ exit.stepped h' 1 :: passage (exit.stepped h' 2) h' next := by
  have hsteps : path ++ ahead 3 ++ next = path ++ 'F' :: 'F' :: 'F' :: next := by simp [ahead]
  rw [passage, hsteps, Turtle.cells_append_cons, hfollow]
  simp only [Turtle.cells, Turtle.step_ahead, stepped_stepped, passage, List.cons_append, Int.reduceAdd]

theorem passage_corner {entry exit : Position} {h h' : Heading} {path : Path}
    (hfollow : Turtle.follow ⟨entry.stepped h 1, h⟩ path = ⟨exit, h'⟩) (t : Turn) (next : Path) :
    passage entry h (path ++ corner t ++ next) = passage entry h path ++ exit.stepped (h'.turned t) 1 ::
      passage (exit.stepped (h'.turned t) 2) h'.opposite next := by
  have hsteps : path ++ corner t ++ next = path ++ t.mark :: 'F' :: t.mark :: next := by simp [corner]
  rw [passage, hsteps, Turtle.cells_append_cons, hfollow]
  simp only [Turtle.cells, Turtle.step_ahead, Turtle.step_mark, stepped_stepped, passage, List.cons_append,
    Int.reduceAdd, Heading.turned_turned]

theorem follow_ahead {entry exit : Position} {h h' : Heading} {path : Path}
    (hfollow : Turtle.follow ⟨entry.stepped h 1, h⟩ path = ⟨exit, h'⟩) (next : Path) :
    Turtle.follow ⟨entry.stepped h 1, h⟩ (path ++ ahead 3 ++ next) =
      Turtle.follow ⟨(exit.stepped h' 2).stepped h' 1, h'⟩ next := by
  rw [Turtle.follow_append, Turtle.follow_append, hfollow]
  simp only [ahead, List.replicate, Turtle.follow, List.foldl_cons, List.foldl_nil, Turtle.step_ahead,
    stepped_stepped, Int.reduceAdd]

theorem follow_corner {entry exit : Position} {h h' : Heading} {path : Path}
    (hfollow : Turtle.follow ⟨entry.stepped h 1, h⟩ path = ⟨exit, h'⟩) (t : Turn) (next : Path) :
    Turtle.follow ⟨entry.stepped h 1, h⟩ (path ++ corner t ++ next) =
      Turtle.follow ⟨(exit.stepped (h'.turned t) 2).stepped h'.opposite 1, h'.opposite⟩ next := by
  rw [Turtle.follow_append, Turtle.follow_append, hfollow]
  simp only [corner, Turtle.follow, List.foldl_cons, List.foldl_nil, Turtle.step_ahead, Turtle.step_mark,
    stepped_stepped, Int.reduceAdd, Heading.turned_turned]

namespace Traverses

variable {near far : Path} {t : Turn} {m n : Int}

/-- Three paths straight on, the middle one to the other side. -/
theorem row (hm : 0 ≤ m) (hn : 0 ≤ n) (hnear : Traverses near t m n) (hfar : Traverses far t.other m n) :
    Traverses (near ++ ahead 3 ++ far ++ ahead 3 ++ near) t (3 * m + 4) n := by
  have hfirst : ∀ (entry : Position) (h : Heading), Turtle.follow ⟨entry.stepped h 1, h⟩ (near ++ ahead 3 ++ far) =
      ⟨((entry.offset h t m n).stepped h 2).offset h t m (-n), h⟩ := by
    intro entry h
    rw [follow_ahead (hnear.follow entry h), hfar.follow, offset_other]
  constructor
  · intro entry h
    rw [passage_ahead (hfirst entry h), passage_ahead (hnear.follow entry h)]
    refine Spans.serpentine hm hn (hnear.spans entry h) rfl ?_ rfl (hnear.spans _ h)
    rw [← offset_other]
    exact hfar.spans _ h
  · intro entry h
    rw [follow_ahead (hfirst entry h), hnear.follow]
    congr 1
    refine eq_of_along h t ?_ ?_
    · simp only [along_offset, along_stepped]
      omega
    · simp only [along_turned_offset, along_turned_stepped]
      omega

/-- Three paths around two corners, the middle one back. -/
theorem stack (hm : 0 ≤ m) (hn : 0 ≤ n) (hnear : Traverses near t m n) (hfar : Traverses far t.other m n) :
    Traverses (near ++ corner t ++ far ++ corner t.other ++ near) t m (3 * n + 4) := by
  have hfirst : ∀ (entry : Position) (h : Heading), Turtle.follow ⟨entry.stepped h 1, h⟩ (near ++ corner t ++ far) =
      ⟨((entry.offset h t m n).stepped (h.turned t) 2).offset h t (-m) n, h.opposite⟩ := by
    intro entry h
    rw [follow_corner (hnear.follow entry h), hfar.follow, offset_opposite]
  constructor
  · intro entry h
    rw [passage_corner (hfirst entry h), passage_corner (hnear.follow entry h), Heading.opposite_opposite,
      Heading.opposite_turned_other]
    refine Spans.serpentine_aside hm hn (hnear.spans entry h) rfl ?_ rfl (hnear.spans _ h)
    rw [← offset_opposite]
    exact hfar.spans _ h.opposite
  · intro entry h
    rw [follow_corner (hfirst entry h), Heading.opposite_opposite, Heading.opposite_turned_other, hnear.follow]
    congr 1
    refine eq_of_along h t ?_ ?_
    · simp only [along_offset, along_stepped_turned]
      omega
    · simp only [along_turned_offset, along_stepped]
      omega

end Traverses

theorem cells_ahead_succ (p : Position) (h : Heading) (steps : Nat) :
    Turtle.cells ⟨p, h⟩ (ahead (steps + 1)) = p :: Turtle.cells ⟨p.stepped h 1, h⟩ (ahead steps) := rfl

theorem follow_straight (p : Position) (h : Heading) (steps : Nat) :
    Turtle.follow ⟨p, h⟩ (ahead steps) = ⟨p.stepped h steps, h⟩ := by
  induction steps generalizing p with
  | zero =>
      rw [Int.natCast_zero, stepped_zero]
      rfl
  | succ steps ih =>
      have hstep : Turtle.follow ⟨p, h⟩ (ahead (steps + 1)) = Turtle.follow ⟨p.stepped h 1, h⟩ (ahead steps) := rfl
      rw [hstep, ih, stepped_stepped, Int.natCast_add, Int.add_comm]
      rfl

theorem mem_cells_ahead {p c : Position} {h : Heading} {steps : Nat}
    (hc : c ∈ Turtle.cells ⟨p, h⟩ (ahead steps)) : ∃ k : Nat, k ≤ steps ∧ c = p.stepped h k := by
  induction steps generalizing p with
  | zero => exact ⟨0, Nat.le_refl 0, by rw [Int.natCast_zero, stepped_zero]; exact List.mem_singleton.mp hc⟩
  | succ steps ih =>
      rw [cells_ahead_succ] at hc
      rcases List.mem_cons.mp hc with rfl | hc
      · exact ⟨0, Nat.zero_le _, (stepped_zero _ h).symm⟩
      · obtain ⟨k, hk, rfl⟩ := ih hc
        refine ⟨k + 1, by omega, ?_⟩
        rw [stepped_stepped, Int.natCast_add, Int.add_comm]
        rfl

theorem clear_cells_ahead (p : Position) (h : Heading) (steps : Nat) :
    Clear (Turtle.cells ⟨p, h⟩ (ahead steps)) := by
  induction steps generalizing p with
  | zero => exact ⟨List.not_mem_nil, fun _ hq => absurd hq List.not_mem_nil, trivial⟩
  | succ steps ih =>
      rw [cells_ahead_succ]
      refine ⟨fun hmem => ?_, fun q hq hadj => ?_, ih _⟩
      · obtain ⟨k, -, heq⟩ := mem_cells_ahead hmem
        have := congrArg (along h) heq
        rw [along_stepped, along_stepped] at this
        omega
      · cases steps with
        | zero => exact absurd hq List.not_mem_nil
        | succ steps =>
            rw [cells_ahead_succ] at hq
            obtain ⟨k, -, rfl⟩ := mem_cells_ahead hq
            have := hadj.along_le h
            simp only [along_stepped] at this
            omega

/-- Steps straight ahead lead through a rectangle of no width. -/
theorem traverses_ahead (steps : Nat) (t : Turn) : Traverses (ahead steps) t (steps + 1) 0 := by
  have hexit : ∀ (entry : Position) (h : Heading),
      entry.offset h t (steps + 1) 0 = entry.stepped h ((steps + 1 : Nat) : Int) := by
    intro entry h
    rw [offset, stepped_zero]
    rfl
  have hfollow : ∀ (entry : Position) (h : Heading),
      Turtle.follow ⟨entry, h⟩ (ahead (steps + 1)) = ⟨entry.offset h t (steps + 1) 0, h⟩ := by
    intro entry h
    rw [hexit, follow_straight]
  refine ⟨fun entry h => ⟨clear_cells_ahead entry h (steps + 1), rfl, ?_, fun c hc => ?_⟩, hfollow⟩
  · rw [passage, ← cells_ahead_succ, Turtle.getLast?_cells, hfollow]
  · rw [passage, ← cells_ahead_succ] at hc
    obtain ⟨k, hk, rfl⟩ := mem_cells_ahead hc
    refine between_offset ?_ ?_
    · rw [along_stepped]
      omega
    · rw [along_turned_stepped]
      omega

/-- A bend of any order leads through a rectangle. -/
theorem traverses_bend (n : Nat) (t : Turn) :
    Traverses (bend 2 3 n t).path t (5 * 3 ^ n - 2) (2 * 3 ^ n - 2) := by
  induction n generalizing t with
  | zero => exact traverses_ahead 2 t
  | succ n ih =>
      have hpos : (0 : Int) < 3 ^ n := Int.pow_pos (by decide)
      -- Rows run there, back and there again, so the middle row bends to the other side.
      have hrow := fun side => Traverses.row (by omega) (by omega) (ih side) (ih side.other)
      have hfar := hrow t.other
      rw [Turn.other_other] at hfar
      have hlength : 5 * (3 : Int) ^ (n + 1) - 2 = 3 * (5 * 3 ^ n - 2) + 4 := by
        rw [Int.pow_succ]
        omega
      have hwidth : 2 * (3 : Int) ^ (n + 1) - 2 = 3 * (2 * 3 ^ n - 2) + 4 := by
        rw [Int.pow_succ]
        omega
      rw [bend, Course.path_stack, Course.path_row, Course.path_row, hlength, hwidth]
      exact Traverses.stack (by omega) (by omega) (hrow t) hfar

theorem clear_cells_generate (n : Nat) : Clear (Turtle.start.cells (generate n)) := by
  cases n with
  | zero => exact ⟨List.not_mem_nil, fun _ hq => absurd hq List.not_mem_nil, trivial⟩
  | succ n =>
      have hspans := (traverses_bend (n + 1) .clockwise).spans ⟨-1, 0⟩ .east
      rw [← generate_succ] at hspans
      exact hspans.clear.tail

theorem length_generate_pos (n : Nat) : 0 < (generate (n + 1)).length := by
  have hregular := regular_bend n .clockwise
  rw [generate_succ]
  cases hcourse : bend 2 3 (n + 1) .clockwise with
  | last run =>
      rw [hcourse] at hregular
      cases hregular.turns
  | bend run turn rest =>
      have hcorner : (corner turn).length = 3 := rfl
      rw [Course.path, List.length_append, List.length_append]
      omega

theorem heading_follow_generate (n : Nat) : (Turtle.start.follow (generate n)).heading = .east := by
  cases n with
  | zero => rfl
  | succ n =>
      have hfollow := (traverses_bend (n + 1) .clockwise).follow ⟨-1, 0⟩ .east
      rw [← generate_succ] at hfollow
      exact congrArg Turtle.heading hfollow

/-- The walk along the curve of any order is an induced path of the grid. -/
theorem inducedPath_generate (n : Nat) : InducedPath (Turtle.start.cells (generate n)) :=
  (clear_cells_generate n).inducedPath (Turtle.adjacent_cells _ _)

end Curve

end CodelCurve
