import CodelCurve.Curve.Path
import Mathlib.Data.List.Basic

/-! The straight runs of a path, and what stretching makes of them. Stretching a path is stretching what lies before
and after any mark in it, where a mark is a character other than a step ahead, so each maximal run is lengthened by
itself and the marks stay. A path has exactly one form as runs with marks between them, and a run's length can be
told from the stretched one. Hence stretching loses nothing, and it changes a path just when two steps ahead follow
each other. -/

namespace CodelCurve.Curve

/-- A number of steps straight ahead. -/
def ahead (steps : Nat) : Path := List.replicate steps 'F'

theorem ahead_add (m n : Nat) : ahead (m + n) = ahead m ++ ahead n :=
  List.replicate_append_replicate.symm

theorem ahead_succ (n : Nat) : ahead (n + 1) = 'F' :: ahead n := rfl

theorem stretchedLength_injective : Function.Injective stretchedLength := by
  intro m n h
  rw [stretchedLength, stretchedLength] at h
  split at h <;> split at h <;> omega

theorem stretchedLength_eq_self_iff {run : Nat} : stretchedLength run = run ↔ run ≤ 1 := by
  rw [stretchedLength]
  split <;> omega

/-! ### Stretching between marks -/

/-- Up to a mark, the run that leads up to the path goes into what lies before the mark; the rest starts anew. -/
theorem stretchFrom_append_mark (run : Nat) (a b : Path) {c : Char} (hc : c ≠ 'F') :
    stretchFrom run (a ++ c :: b) = stretchFrom run a ++ c :: stretch b := by
  -- A step before the mark lengthens the run that is still open, so the statement covers all of them.
  induction a generalizing run with
  | nil => simp [stretchFrom, stretch, hc]
  | cons d rest ih => by_cases hd : d = 'F' <;> simp [stretchFrom, hd, ih]

theorem stretch_append_mark (a b : Path) {c : Char} (hc : c ≠ 'F') :
    stretch (a ++ c :: b) = stretch a ++ c :: stretch b :=
  stretchFrom_append_mark 0 a b hc

theorem stretch_mark_cons (b : Path) {c : Char} (hc : c ≠ 'F') : stretch (c :: b) = c :: stretch b :=
  stretch_append_mark [] b hc

theorem stretchFrom_ahead (run steps : Nat) : stretchFrom run (ahead steps) = ahead (stretchedLength (run + steps)) := by
  induction steps generalizing run with
  | zero => rfl
  | succ steps ih =>
      rw [ahead_succ, stretchFrom, if_pos rfl, ih, Nat.add_assoc, Nat.add_comm 1 steps]

theorem stretch_ahead (run : Nat) : stretch (ahead run) = ahead (stretchedLength run) := by
  rw [stretch, stretchFrom_ahead, Nat.zero_add]

/-- A run at the beginning that goes no further. -/
theorem stretch_ahead_append (run : Nat) {b : Path} (hb : b.head? ≠ some 'F') :
    stretch (ahead run ++ b) = ahead (stretchedLength run) ++ stretch b := by
  cases b with
  | nil =>
      have hnil : stretch [] = [] := rfl
      rw [List.append_nil, hnil, List.append_nil, stretch_ahead]
  | cons c rest =>
      have hc : c ≠ 'F' := fun h => hb (congrArg some h)
      rw [stretch_append_mark _ _ hc, stretch_mark_cons _ hc, stretch_ahead]

/-- A maximal run, wherever it is. -/
theorem stretch_append_ahead_append {a b : Path} (run : Nat) (ha : a.getLast? ≠ some 'F') (hb : b.head? ≠ some 'F') :
    stretch (a ++ ahead run ++ b) = stretch a ++ ahead (stretchedLength run) ++ stretch b := by
  rcases List.eq_nil_or_concat' a with rfl | ⟨before, c, rfl⟩
  · exact stretch_ahead_append run hb
  · have hc : c ≠ 'F' := by
      intro h
      exact ha (by rw [List.getLast?_concat, h])
    have hbefore : stretch (before ++ [c]) = stretch before ++ [c] := stretch_append_mark before [] hc
    calc stretch (before ++ [c] ++ ahead run ++ b)
      _ = stretch (before ++ c :: (ahead run ++ b)) := by simp
      _ = stretch before ++ c :: stretch (ahead run ++ b) := stretch_append_mark _ _ hc
      _ = stretch before ++ c :: (ahead (stretchedLength run) ++ stretch b) := by rw [stretch_ahead_append run hb]
      _ = stretch (before ++ [c]) ++ ahead (stretchedLength run) ++ stretch b := by simp [hbefore]

/-! ### Paths as runs and marks -/

/-- A character other than a step ahead. -/
abbrev Mark := {c : Char // c ≠ 'F'}

/-- Straight runs with a mark between each two. A run may be empty. -/
inductive Runs where
  | last (run : Nat)
  | mark (run : Nat) (c : Mark) (rest : Runs)

namespace Runs

/-- The path along the runs and the marks. -/
def path : Runs → Path
  | last run => ahead run
  | mark run c rest => ahead run ++ c.val :: rest.path

/-- The lengths of the runs. -/
def lengths : Runs → List Nat
  | last run => [run]
  | mark run _ rest => run :: rest.lengths

/-- The same marks with each run replaced. -/
def map (f : Nat → Nat) : Runs → Runs
  | last run => last (f run)
  | mark run c rest => mark (f run) c (rest.map f)

/-- The runs with one more step in the first. -/
def step : Runs → Runs
  | last run => last (run + 1)
  | mark run c rest => mark (run + 1) c rest

/-- The runs of a path. -/
def ofPath : Path → Runs
  | [] => last 0
  | c :: rest => if h : c = 'F' then (ofPath rest).step else mark 0 ⟨c, h⟩ (ofPath rest)

theorem ofPath_step_cons (p : Path) : ofPath ('F' :: p) = (ofPath p).step := rfl

theorem path_step (r : Runs) : r.step.path = 'F' :: r.path := by
  cases r <;> rfl

theorem path_ofPath (p : Path) : (ofPath p).path = p := by
  induction p with
  | nil => rfl
  | cons c rest ih =>
      by_cases h : c = 'F'
      · rw [h, ofPath_step_cons, path_step, ih]
      · rw [ofPath, dif_neg h, path, ih]
        rfl

theorem ofPath_path (r : Runs) : ofPath r.path = r := by
  induction r with
  | last run =>
      induction run with
      | zero => rfl
      | succ run ihrun => exact congrArg step ihrun
  | mark run c rest ih =>
      induction run with
      | zero =>
          show ofPath (c.val :: rest.path) = mark 0 c rest
          rw [ofPath, dif_neg c.property, ih]
      | succ run ihrun => exact congrArg step ihrun

theorem path_injective : Function.Injective path :=
  Function.LeftInverse.injective ofPath_path

theorem map_injective {f : Nat → Nat} (hf : Function.Injective f) : Function.Injective (map f) := by
  intro r
  induction r with
  | last run =>
      intro s h
      cases s with
      | last other =>
          rw [map, map, last.injEq] at h
          rw [hf h]
      | mark other d next => cases h
  | mark run c rest ih =>
      intro s h
      cases s with
      | last other => cases h
      | mark other d next =>
          rw [map, map, mark.injEq] at h
          rw [hf h.1, h.2.1, ih h.2.2]

theorem map_eq_self_iff {f : Nat → Nat} {r : Runs} : r.map f = r ↔ ∀ run ∈ r.lengths, f run = run := by
  induction r with
  | last run => simp [map, lengths]
  | mark run c rest ih => simp [map, lengths, ih]

/-- Stretching acts on each run by itself. -/
theorem stretch_path (r : Runs) : stretch r.path = (r.map stretchedLength).path := by
  induction r with
  | last run => exact stretch_ahead run
  | mark run c rest ih => rw [path, stretch_append_mark _ _ c.property, stretch_ahead, ih, map, path]

theorem step_prefix_ahead_append_iff (run : Nat) {b : Path} (hb : b.head? ≠ some 'F') :
    ['F'] <+: ahead run ++ b ↔ 1 ≤ run := by
  cases run with
  | zero =>
      cases b with
      | nil => simp [ahead]
      | cons c rest =>
          have hc : 'F' ≠ c := fun h => hb (congrArg some h.symm)
          simp [ahead, hc]
  | succ run => simp [ahead_succ]

theorem pair_infix_ahead_append_iff (run : Nat) {b : Path} (hb : b.head? ≠ some 'F') :
    ['F', 'F'] <:+: ahead run ++ b ↔ 2 ≤ run ∨ ['F', 'F'] <:+: b := by
  induction run with
  | zero => simp [ahead]
  | succ run ih =>
      -- A pair is the first two steps, or it lies in what follows the first.
      have hpair : ['F', 'F'] <+: 'F' :: (ahead run ++ b) ↔ 1 ≤ run := by
        rw [List.cons_prefix_cons, step_prefix_ahead_append_iff run hb]
        exact and_iff_right rfl
      have hlong : 1 ≤ run ∨ 2 ≤ run ↔ 2 ≤ run + 1 := by omega
      rw [ahead_succ, List.cons_append, List.infix_cons_iff, hpair, ih, ← or_assoc, hlong]

theorem pair_infix_path_iff (r : Runs) : ['F', 'F'] <:+: r.path ↔ ∃ run ∈ r.lengths, 2 ≤ run := by
  induction r with
  | last run =>
      have h := pair_infix_ahead_append_iff run (b := []) (by decide)
      simpa [path, lengths] using h
  | mark run c rest ih =>
      have hc : (c.val :: rest.path).head? ≠ some 'F' := fun h => c.property (Option.some.inj h)
      have hmark : ['F', 'F'] <:+: c.val :: rest.path ↔ ['F', 'F'] <:+: rest.path := by
        simp [List.infix_cons_iff, c.property.symm]
      rw [path, pair_infix_ahead_append_iff run hc, hmark, ih]
      simp [lengths]

end Runs

/-! ### What stretching keeps -/

theorem stretch_injective : Function.Injective stretch := by
  have hstretch : stretch = Runs.path ∘ Runs.map stretchedLength ∘ Runs.ofPath := by
    funext p
    rw [Function.comp_apply, Function.comp_apply, ← Runs.stretch_path, Runs.path_ofPath]
  have hofPath : Function.Injective Runs.ofPath := Function.LeftInverse.injective Runs.path_ofPath
  rw [hstretch]
  exact Runs.path_injective.comp ((Runs.map_injective stretchedLength_injective).comp hofPath)

theorem stretch_eq_self_iff (p : Path) : stretch p = p ↔ ¬ ['F', 'F'] <:+: p := by
  obtain ⟨r, rfl⟩ : ∃ r : Runs, r.path = p := ⟨_, Runs.path_ofPath p⟩
  calc stretch r.path = r.path
    _ ↔ r.map stretchedLength = r := by rw [Runs.stretch_path, Runs.path_injective.eq_iff]
    _ ↔ ∀ run ∈ r.lengths, run ≤ 1 := by simp only [Runs.map_eq_self_iff, stretchedLength_eq_self_iff]
    _ ↔ ¬ ∃ run ∈ r.lengths, 2 ≤ run := by grind
    _ ↔ ¬ ['F', 'F'] <:+: r.path := by rw [Runs.pair_infix_path_iff]

/-- Stretching lengthens each maximal run of at least two steps and keeps all else in place. It never takes two
paths to one, and it leaves just those paths as they are in which no two steps ahead follow each other. -/
theorem stretch_lengthens_maximal_runs :
    (∀ (a b : Path) (n : Nat), a.getLast? ≠ some 'F' → b.head? ≠ some 'F' →
        stretch (a ++ ahead n ++ b) = stretch a ++ ahead (if n ≤ 1 then n else 5 * n + 2) ++ stretch b) ∧
      (∀ (a b : Path) (c : Char), c ≠ 'F' → stretch (a ++ c :: b) = stretch a ++ c :: stretch b) ∧
      Function.Injective stretch ∧
      ∀ p : Path, stretch p = p ↔ ¬ ['F', 'F'] <:+: p := by
  refine ⟨?_, ?_, stretch_injective, stretch_eq_self_iff⟩
  · intro a b n ha hb
    exact stretch_append_ahead_append n ha hb
  · intro a b c hc
    exact stretch_append_mark a b hc

/-- A run of two steps, one of three and a single step, with turns between them. -/
theorem stretch_lengthens_maximal_runs_between_turns :
    ['F', 'F', '+'].getLast? ≠ some 'F' ∧ ['-', 'F'].head? ≠ some 'F' ∧ '+' ≠ 'F' ∧ ¬ ['F', 'F'] <:+: ['-', 'F'] ∧
      stretch (['F', 'F', '+'] ++ ahead 3 ++ ['-', 'F']) = ahead 12 ++ ['+'] ++ ahead 17 ++ ['-', 'F'] ∧
      stretch ['F', 'F', '+'] ≠ stretch ['F', '+'] := by
  obtain ⟨hrun, hmark, hinjective, hfixed⟩ := stretch_lengthens_maximal_runs
  have hlast : ['F', 'F', '+'].getLast? ≠ some 'F' := by decide
  have hhead : ['-', 'F'].head? ≠ some 'F' := by decide
  have hturn : '+' ≠ 'F' := by decide
  have hlone : ¬ ['F', 'F'] <:+: ['-', 'F'] := by decide
  have hbefore : stretch ['F', 'F', '+'] = ahead 12 ++ ['+'] := hmark ['F', 'F'] [] '+' hturn
  refine ⟨hlast, hhead, hturn, hlone, ?_, hinjective.ne (by decide)⟩
  rw [hrun _ _ 3 hlast hhead, hbefore, (hfixed _).mpr hlone]
  rfl

end CodelCurve.Curve
