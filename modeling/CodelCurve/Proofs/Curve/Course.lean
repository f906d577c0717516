import CodelCurve.Proofs.Curve.Plane
import CodelCurve.Proofs.Curve.Runs

/-! A curve as straight runs with corners between them. A corner is two turns to the same side with a single step
between, so a bend of any order is a list of runs and of the sides its corners turn to. Stretching acts on the
runs alone, and it takes the nine-fold joining of bends to the same joining with three steps in place of one.
From order one on, the stretched curve is therefore built by a recursion of its own, all runs of which have 12
or 27 steps. The recursion follows the rewriting of words, in which every symbol grows to a bend. -/

namespace CodelCurve

namespace Curve

/-- The steps around a corner. -/
def corner (turn : Turn) : Path := [turn.mark, 'F', turn.mark]

/-- Straight runs with a corner between each two. -/
inductive Course where
  | last (run : Nat)
  | bend (run : Nat) (turn : Turn) (rest : Course)

namespace Course

/-- The path along the runs and around the corners. -/
def path : Course → Path
  | last run => ahead run
  | bend run turn rest => ahead run ++ corner turn ++ rest.path

/-- The lengths of the runs. -/
def runs : Course → List Nat
  | last run => [run]
  | bend run _ rest => run :: rest.runs

def firstRun : Course → Nat
  | last run => run
  | bend run _ _ => run

def lastRun : Course → Nat
  | last run => run
  | bend _ _ rest => rest.lastRun

/-- The side of the first corner. -/
def firstTurn? : Course → Option Turn
  | last _ => none
  | bend _ turn _ => some turn

/-- The course with each run replaced. -/
def mapRuns (f : Nat → Nat) : Course → Course
  | last run => last (f run)
  | bend run turn rest => bend (f run) turn (rest.mapRuns f)

/-- One course after another, with steps straight ahead between them. -/
def straightOn (between : Nat) : Course → Course → Course
  | last run, last next => last (run + between + next)
  | last run, bend next turn rest => bend (run + between + next) turn rest
  | bend run turn rest, next => bend run turn (rest.straightOn between next)

/-- One course after another, with a corner between them. -/
def around (turn : Turn) : Course → Course → Course
  | last run, next => bend run turn next
  | bend run side rest, next => bend run side (rest.around turn next)

/-- Three courses in a row, the middle one of the other kind. -/
def row (between : Nat) (near far : Course) : Course :=
  (near.straightOn between far).straightOn between near

/-- Three rows, each around a corner from the one before. -/
def stack (turn : Turn) (outer middle : Course) : Course :=
  (outer.around turn middle).around turn.other outer

theorem path_straightOn (between : Nat) (c d : Course) :
    (c.straightOn between d).path = c.path ++ ahead between ++ d.path := by
  induction c with
  | last run =>
      cases d with
      | last next => simp only [straightOn, path, ahead_add]
      | bend next turn rest => simp only [straightOn, path, ahead_add, List.append_assoc]
  | bend run turn rest ih => simp only [straightOn, path, ih, List.append_assoc]

theorem path_around (turn : Turn) (c d : Course) :
    (c.around turn d).path = c.path ++ corner turn ++ d.path := by
  induction c with
  | last run => simp only [around, path]
  | bend run side rest ih => simp only [around, path, ih, List.append_assoc]

theorem path_row (between : Nat) (near far : Course) :
    (row between near far).path =
      near.path ++ ahead between ++ far.path ++ ahead between ++ near.path := by
  rw [row, path_straightOn, path_straightOn]

theorem path_stack (turn : Turn) (outer middle : Course) :
    (stack turn outer middle).path =
      outer.path ++ corner turn ++ middle.path ++ corner turn.other ++ outer.path := by
  rw [stack, path_around, path_around]

theorem runs_around (turn : Turn) (c d : Course) : (c.around turn d).runs = c.runs ++ d.runs := by
  induction c with
  | last run => rfl
  | bend run side rest ih => simp only [around, runs, ih, List.cons_append]

theorem mem_runs_straightOn {between run : Nat} {c d : Course} (h : run ∈ (c.straightOn between d).runs) :
    run ∈ c.runs ∨ run ∈ d.runs ∨ run = c.lastRun + between + d.firstRun := by
  induction c with
  | last first =>
      cases d with
      | last next => exact .inr (.inr (List.mem_singleton.mp h))
      | bend next turn rest =>
          rcases List.mem_cons.mp h with h | h
          · exact .inr (.inr h)
          · exact .inr (.inl (List.mem_cons_of_mem _ h))
  | bend first turn rest ih =>
      rcases List.mem_cons.mp h with h | h
      · exact .inl (h ▸ List.mem_cons_self)
      · rcases ih h with h | h
        · exact .inl (List.mem_cons_of_mem _ h)
        · exact .inr h

theorem lastRun_straightOn (between : Nat) (c : Course) {d : Course} {turn : Turn}
    (hd : d.firstTurn? = some turn) : (c.straightOn between d).lastRun = d.lastRun := by
  induction c with
  | last run =>
      cases d with
      | last next => cases hd
      | bend next side rest => rfl
  | bend run side rest ih => exact ih

theorem lastRun_around (turn : Turn) (c d : Course) : (c.around turn d).lastRun = d.lastRun := by
  induction c with
  | last run => rfl
  | bend run side rest ih => exact ih

theorem runs_mapRuns (f : Nat → Nat) (c : Course) : (c.mapRuns f).runs = c.runs.map f := by
  induction c with
  | last run => rfl
  | bend run turn rest ih => simp only [mapRuns, runs, ih, List.map_cons]

/-- A map that adds up over joints keeps the form of `straightOn`. -/
theorem mapRuns_straightOn {f : Nat → Nat} {m n : Nat} (hf : ∀ a b, f (a + m + b) = f a + n + f b)
    (c d : Course) : (c.straightOn m d).mapRuns f = (c.mapRuns f).straightOn n (d.mapRuns f) := by
  induction c with
  | last run => cases d <;> simp only [straightOn, mapRuns, hf]
  | bend run turn rest ih => simp only [straightOn, mapRuns, ih]

theorem mapRuns_around (f : Nat → Nat) (turn : Turn) (c d : Course) :
    (c.around turn d).mapRuns f = (c.mapRuns f).around turn (d.mapRuns f) := by
  induction c with
  | last run => simp only [around, mapRuns]
  | bend run side rest ih => simp only [around, mapRuns, ih]

/-! ### Stretching -/

theorem stretch_corner (run : Nat) (turn : Turn) (rest : Path) :
    stretch (ahead run ++ corner turn ++ rest) = ahead (stretchedLength run) ++ corner turn ++ stretch rest := by
  have hstep : stretch ('F' :: turn.mark :: rest) = 'F' :: turn.mark :: stretch rest :=
    stretch_append_mark ['F'] rest turn.mark_ne_step
  have hturn := stretch_append_mark (ahead run) ('F' :: turn.mark :: rest) turn.mark_ne_step
  rw [hstep, stretch_ahead] at hturn
  simpa only [corner, List.append_assoc, List.cons_append, List.nil_append] using hturn

/-- The length of a stretched run, for runs of at least two steps. -/
def widened (run : Nat) : Nat := 5 * run + 2

theorem stretchedLength_eq_widened {run : Nat} (h : 2 ≤ run) : stretchedLength run = widened run := by
  rw [stretchedLength, if_neg (by omega), widened]

/-- Stretching lengthens the runs and leaves the corners as they are. -/
theorem stretch_path (c : Course) (h : ∀ run ∈ c.runs, 2 ≤ run) :
    stretch c.path = (c.mapRuns widened).path := by
  induction c with
  | last run =>
      have hrun : 2 ≤ run := h run List.mem_cons_self
      rw [path, stretch_ahead, stretchedLength_eq_widened hrun, mapRuns, path]
  | bend run turn rest ih =>
      have hrun : 2 ≤ run := h run List.mem_cons_self
      have hrest := ih fun r hr => h r (List.mem_cons_of_mem _ hr)
      rw [path, stretch_corner, stretchedLength_eq_widened hrun, hrest, mapRuns, path]

end Course

/-! ### The curve of each order -/

open Course

/-- The bend of an order to a side, as a course: nine of one order make one of the next, with a number of steps
between those in a row. -/
def bend (start between : Nat) : Nat → Turn → Course
  | 0, _ => .last start
  | n + 1, turn =>
    let near := bend start between n turn
    let far := bend start between n turn.other
    stack turn (row between near far) (row between far near)

/-! ### Rewriting -/

theorem grow_append (n : Nat) (p q : Path) : grow n (p ++ q) = grow n p ++ grow n q := by
  induction n generalizing p q with
  | zero => rfl
  | succ n ih => simp only [grow, rewrite, List.flatMap_append, ih]

theorem steps_grow_cons (n : Nat) (c : Char) (word : Path) :
    steps (grow n (c :: word)) = steps (grow n [c]) ++ steps (grow n word) := by
  rw [← List.singleton_append, grow_append, steps, List.filter_append]
  rfl

theorem steps_grow_singleton {c : Char} (hrule : rule c = [c]) (hstep : steps [c] = [c]) (n : Nat) :
    steps (grow n [c]) = [c] := by
  induction n with
  | zero => exact hstep
  | succ n ih =>
      have hstays : rewrite [c] = [c] := by rw [rewrite, List.flatMap_singleton, hrule]
      rw [grow, hstays, ih]

/-- Each of the two symbols grows to the bend to its side. -/
theorem path_bend_eq_steps (n : Nat) :
    (bend 0 1 n .clockwise).path = steps (grow n ['X']) ∧
      (bend 0 1 n .anticlockwise).path = steps (grow n ['Y']) := by
  induction n with
  | zero => exact ⟨rfl, rfl⟩
  | succ n ih =>
      obtain ⟨hx, hy⟩ := ih
      have hahead : steps (grow n ['F']) = ['F'] := steps_grow_singleton rfl rfl n
      have hright : steps (grow n ['+']) = ['+'] := steps_grow_singleton rfl rfl n
      have hleft : steps (grow n ['-']) = ['-'] := steps_grow_singleton rfl rfl n
      constructor
      · have hword : rewrite ['X'] = ['X', 'F', 'Y', 'F', 'X', '+', 'F', '+', 'Y', 'F', 'X', 'F', 'Y', '-', 'F', '-',
            'X', 'F', 'Y', 'F', 'X'] := by decide
        rw [grow, hword, bend, path_stack, path_row, path_row]
        simp only [steps_grow_cons n _ (_ :: _), hahead, hright, hleft, ← hx, ← hy]
        simp [ahead, corner, Turn.mark, Turn.other]
      · have hword : rewrite ['Y'] = ['Y', 'F', 'X', 'F', 'Y', '-', 'F', '-', 'X', 'F', 'Y', 'F', 'X', '+', 'F', '+',
            'Y', 'F', 'X', 'F', 'Y'] := by decide
        rw [grow, hword, bend, path_stack, path_row, path_row]
        simp only [steps_grow_cons n _ (_ :: _), hahead, hright, hleft, ← hx, ← hy]
        simp [ahead, corner, Turn.mark, Turn.other]

theorem mapRuns_bend (n : Nat) (turn : Turn) : (bend 0 1 n turn).mapRuns widened = bend 2 3 n turn := by
  have hjoint : ∀ a b, widened (a + 1 + b) = widened a + 3 + widened b := by
    intro a b
    unfold widened
    omega
  induction n generalizing turn with
  | zero => rfl
  | succ n ih =>
      simp only [bend, stack, row, mapRuns_around, mapRuns_straightOn hjoint, ih]

/-- What the runs of a curve are like: they have 12 or 27 steps, the first and the last of them 12. -/
structure Regular (turn : Turn) (c : Course) : Prop where
  turns : c.firstTurn? = some turn
  first : c.firstRun = 12
  last : c.lastRun = 12
  runs : ∀ run ∈ c.runs, run = 12 ∨ run = 27

namespace Regular

variable {turn side : Turn} {c d : Course}

theorem straightOn (hc : Regular turn c) (hd : Regular side d) : Regular turn (c.straightOn 3 d) where
  turns := by
    cases c with
    | last run => cases hc.turns
    | bend run t rest => exact hc.turns
  first := by
    cases c with
    | last run => cases hc.turns
    | bend run t rest => exact hc.first
  last := by rw [lastRun_straightOn 3 c hd.turns, hd.last]
  runs run hrun := by
    rcases mem_runs_straightOn hrun with h | h | h
    · exact hc.runs run h
    · exact hd.runs run h
    · right
      rw [h, hc.last, hd.first]

theorem around (hc : Regular turn c) (hd : Regular side d) (corner : Turn) : Regular turn (c.around corner d) where
  turns := by
    cases c with
    | last run => cases hc.turns
    | bend run t rest => exact hc.turns
  first := by
    cases c with
    | last run => cases hc.turns
    | bend run t rest => exact hc.first
  last := by rw [lastRun_around, hd.last]
  runs run hrun := by
    rw [runs_around, List.mem_append] at hrun
    exact hrun.elim (hc.runs run) (hd.runs run)

theorem row (hc : Regular turn c) (hd : Regular side d) : Regular turn (row 3 c d) :=
  (hc.straightOn hd).straightOn hc

theorem stack (hc : Regular turn c) (hd : Regular side d) : Regular turn (stack turn c d) :=
  (hc.around hd _).around hc _

end Regular

theorem regular_bend (n : Nat) (turn : Turn) : Regular turn (bend 2 3 (n + 1) turn) := by
  induction n generalizing turn with
  | zero => exact ⟨rfl, rfl, rfl, by cases turn <;> decide⟩
  | succ n ih =>
      have hnear := ih turn
      have hfar := ih turn.other
      exact (hnear.row hfar).stack (hfar.row hnear)

/-- The stretched curve, from order one on. -/
theorem generate_succ (n : Nat) : generate (n + 1) = (bend 2 3 (n + 1) .clockwise).path := by
  have hwide : ∀ run ∈ (bend 0 1 (n + 1) .clockwise).runs, 2 ≤ run := by
    intro run hrun
    have hmem : widened run ∈ (bend 2 3 (n + 1) .clockwise).runs := by
      rw [← mapRuns_bend, runs_mapRuns]
      exact List.mem_map_of_mem hrun
    have hlength := (regular_bend n .clockwise).runs _ hmem
    unfold widened at hlength
    omega
  rw [generate, seed, ← (path_bend_eq_steps (n + 1)).1, stretch_path _ hwide, mapRuns_bend]

end Curve

end CodelCurve
