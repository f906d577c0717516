import CodelCurve.Proofs.Layout.Pieces

/-! The grammar of paths. A path is read exactly when it is made of turns and of slots that are long enough, in one way
only. Else a character is left that turns outside of all turns, or a step alone between them. -/

namespace CodelCurve.Layout

namespace Token

/-- A place of a path lies among the cells of a turn. -/
def Covered (w : Curve.Path) (i : Nat) : Prop :=
  ∃ t j, (turn t).cells <+: w.drop j ∧ j ≤ i ∧ i < j + (turn t).cells.length

/-- A place where a path turns, outside of all turns. -/
def Loose (w : Curve.Path) (i : Nat) : Prop := (w[i]? = some '+' ∨ w[i]? = some '-') ∧ ¬ Covered w i

/-- A step ahead outside of all turns, with turns or the ends of the path on both sides. -/
def Lone (w : Curve.Path) (i : Nat) : Prop :=
  w[i]? = some 'F' ∧ ¬ Covered w i ∧ (∀ j, j + 1 = i → Covered w j) ∧ (i + 1 < w.length → Covered w (i + 1))

theorem covered_cons {c : Char} {w : Curve.Path} (free : ∀ t, ¬ (turn t).cells <+: c :: w) {i : Nat} :
    Covered (c :: w) i ↔ ∃ k, i = k + 1 ∧ Covered w k := by
  constructor
  · rintro ⟨t, j, hbegins, hle, hlt⟩
    cases j with
    | zero => exact absurd hbegins (free t)
    | succ j => exact ⟨i - 1, by omega, t, j, hbegins, by omega, by omega⟩
  · rintro ⟨k, rfl, t, j, hbegins, hle, hlt⟩
    exact ⟨t, j + 1, hbegins, by omega, by omega⟩

theorem covered_cells_append {u : Turn} {w : Curve.Path} {i : Nat} :
    Covered ((turn u).cells ++ w) i ↔
      i < (turn u).cells.length ∨ ∃ k, i = (turn u).cells.length + k ∧ Covered w k := by
  constructor
  · rintro ⟨t, j, hbegins, hle, hlt⟩
    obtain rfl | hpos := Nat.eq_zero_or_pos j
    · rw [List.drop_zero, prefix_cells_append] at hbegins
      subst hbegins
      exact .inl (by omega)
    · obtain hinside | hbeyond := Nat.lt_or_ge j (turn u).cells.length
      · rw [List.drop_append_of_le_length (by omega)] at hbegins
        exact absurd hbegins (not_prefix_drop_cells t u hpos hinside w)
      · obtain ⟨k, rfl⟩ := Nat.exists_eq_add_of_le hbeyond
        rw [List.drop_length_add_append] at hbegins
        exact .inr ⟨i - (turn u).cells.length, by omega, t, k, hbegins, by omega, by omega⟩
  · rintro (hinside | ⟨k, rfl, t, j, hbegins, hle, hlt⟩)
    · exact ⟨u, 0, List.prefix_append _ w, Nat.zero_le i, by omega⟩
    · refine ⟨t, (turn u).cells.length + j, ?_, by omega, by omega⟩
      rwa [List.drop_length_add_append]

end Token

namespace Piece

open Token (Covered Loose Lone)

/-- The characters of a piece, where those of turns are blotted out. -/
def leftover : Piece → List (Option Char)
  | turn t => List.replicate (Token.turn t).cells.length none
  | char c => [some c]

theorem some_mem_leftover {c : Char} {ps : List Piece} : some c ∈ ps.flatMap leftover ↔ char c ∈ ps := by
  rw [List.mem_flatMap]
  constructor
  · rintro ⟨p, hp, hmem⟩
    cases p with
    | turn t => cases List.eq_of_mem_replicate hmem
    | char d => rwa [Option.some.inj (List.mem_singleton.mp hmem)]
  · exact fun hmem => ⟨_, hmem, List.mem_singleton_self _⟩

/-- The turns are blotted out, and all else is left over. -/
theorem Reads.getElem?_leftover {w : Curve.Path} {ps : List Piece} (h : Reads w ps) (i : Nat) :
    (Covered w i → (ps.flatMap leftover)[i]? = some none) ∧
      (¬ Covered w i → (ps.flatMap leftover)[i]? = w[i]?.map some) := by
  induction h generalizing i with
  | nil =>
      refine ⟨?_, fun _ => rfl⟩
      rintro ⟨t, j, hbegins, _⟩
      rw [List.drop_nil, List.prefix_nil] at hbegins
      have hlength := Token.length_cells_turn t
      rw [hbegins] at hlength
      cases hlength
  | @turn u w ps rest ih =>
      have hlength : (leftover (.turn u)).length = (Token.turn u).cells.length := List.length_replicate
      rw [List.flatMap_cons, Token.covered_cells_append]
      obtain hinside | hbeyond := Nat.lt_or_ge i (Token.turn u).cells.length
      · refine ⟨fun _ => ?_, fun hfree => absurd (.inl hinside) hfree⟩
        rw [List.getElem?_append_left (by omega), leftover, List.getElem?_replicate_of_lt hinside]
      · obtain ⟨k, rfl⟩ := Nat.exists_eq_add_of_le hbeyond
        have hcovered : (Token.turn u).cells.length + k < (Token.turn u).cells.length ∨
            (∃ k', (Token.turn u).cells.length + k = (Token.turn u).cells.length + k' ∧ Covered w k') ↔ Covered w k := by
          simp
        rw [hcovered, List.getElem?_append_right (by omega), List.getElem?_append_right (by omega), hlength,
          Nat.add_sub_cancel_left]
        exact ih k
  | @char c w ps free rest ih =>
      rw [List.flatMap_cons, Token.covered_cons free]
      cases i with
      | zero => simp [leftover]
      | succ i =>
          have hcovered : (∃ k, i + 1 = k + 1 ∧ Covered w k) ↔ Covered w i := by
            simp
          rw [hcovered]
          exact ih i

theorem Reads.some_some_iff {w : Curve.Path} {ps : List Piece} (h : Reads w ps) {i : Nat} {c : Char} :
    (ps.flatMap leftover)[i]? = some (some c) ↔ w[i]? = some c ∧ ¬ Covered w i := by
  obtain ⟨hcovered, hfree⟩ := h.getElem?_leftover i
  by_cases hi : Covered w i
  · simp [hcovered hi, hi]
  · simp [hfree hi, hi]

theorem Reads.exists_loose_iff {w : Curve.Path} {ps : List Piece} (h : Reads w ps) :
    (∃ i, Loose w i) ↔ Piece.char '+' ∈ ps ∨ Piece.char '-' ∈ ps := by
  rw [← some_mem_leftover, ← some_mem_leftover, List.mem_iff_getElem?, List.mem_iff_getElem?, ← exists_or]
  simp only [h.some_some_iff, Loose, or_and_right]

/-- A list that goes on after a number of characters left over has one of these alone: there is no neighbour that is
left over as well. -/
def Single (steps : Nat) (rest : List (Option Char)) : Prop :=
  (steps = 1 ∧ ∀ c, rest[0]? ≠ some (some c)) ∨
    ∃ i, (∃ c, rest[i]? = some (some c)) ∧ (i = 0 → steps = 0) ∧ (∀ j, j + 1 = i → rest[j]? = some none) ∧
      ∀ c, rest[i + 1]? ≠ some (some c)

theorem single_nil (steps : Nat) : Single steps [] ↔ steps = 1 := by
  simp [Single]

theorem single_some (steps : Nat) (c : Char) (rest : List (Option Char)) :
    Single steps (some c :: rest) ↔ Single (steps + 1) rest := by
  constructor
  · rintro (⟨_, hfirst⟩ | ⟨i, hi, hzero, hbefore, hafter⟩)
    · exact absurd rfl (hfirst c)
    · cases i with
      | zero => exact .inl ⟨by rw [hzero rfl], hafter⟩
      | succ i =>
          refine .inr ⟨i, hi, ?_, ?_, hafter⟩
          · rintro rfl
            cases hbefore 0 rfl
          · rintro j rfl
            exact hbefore (j + 1) rfl
  · rintro (⟨hsteps, hfirst⟩ | ⟨i, hi, hzero, hbefore, hafter⟩)
    · exact .inr ⟨0, ⟨c, rfl⟩, fun _ => by omega, fun j hj => absurd hj (Nat.succ_ne_zero j), hfirst⟩
    · refine .inr ⟨i + 1, hi, fun hi => absurd hi (Nat.succ_ne_zero i), ?_, hafter⟩
      intro j hj
      obtain rfl : j = i := Nat.succ.inj hj
      cases j with
      | zero => cases hzero rfl
      | succ j => exact hbefore j rfl

theorem single_none (steps : Nat) (rest : List (Option Char)) :
    Single steps (none :: rest) ↔ steps = 1 ∨ Single 0 rest := by
  constructor
  · rintro (⟨hsteps, _⟩ | ⟨i, hi, _, hbefore, hafter⟩)
    · exact .inl hsteps
    · cases i with
      | zero =>
          obtain ⟨c, hc⟩ := hi
          cases hc
      | succ i =>
          refine .inr (.inr ⟨i, hi, fun _ => rfl, ?_, hafter⟩)
          rintro j rfl
          exact hbefore (j + 1) rfl
  · rintro (hsteps | ⟨hzero, _⟩ | ⟨i, hi, _, hbefore, hafter⟩)
    · exact .inl ⟨hsteps, fun c hc => by cases hc⟩
    · cases hzero
    · refine .inr ⟨i + 1, hi, fun hi => absurd hi (Nat.succ_ne_zero i), ?_, hafter⟩
      intro j hj
      obtain rfl : j = i := Nat.succ.inj hj
      cases j with
      | zero => rfl
      | succ j => exact hbefore j rfl

theorem single_nones (n : Nat) (rest : List (Option Char)) :
    Single 0 (List.replicate n none ++ rest) ↔ Single 0 rest := by
  induction n with
  | zero => rfl
  | succ n ih =>
      show Single 0 (none :: (List.replicate n none ++ rest)) ↔ _
      rw [single_none, ih, or_iff_right Nat.zero_ne_one]

theorem slot_one_mem_run (steps : Nat) : Token.slot 1 ∈ run steps ↔ steps = 1 := by
  rw [run]
  split
  · simp [*]
  · rw [List.mem_singleton, Token.slot.injEq]
    omega

theorem slot_one_mem_gather (steps : Nat) (ps : List Piece) :
    Token.slot 1 ∈ gather steps ps ↔ Single steps (ps.flatMap leftover) := by
  induction ps generalizing steps with
  | nil => rw [gather, slot_one_mem_run, List.flatMap_nil, single_nil]
  | cons p ps ih =>
      rw [List.flatMap_cons]
      cases p with
      | char c => rw [gather, ih, leftover, List.singleton_append, single_some]
      | turn t =>
          have hturn : Token.slot 1 ∈ Token.turn t :: gather 0 ps ↔ Token.slot 1 ∈ gather 0 ps := by simp
          rw [gather, List.mem_append, slot_one_mem_run, hturn, ih, leftover, Token.length_cells_turn]
          show _ ↔ Single steps (none :: (List.replicate (t.setup + 2) none ++ _))
          rw [single_none, single_nones]

theorem Reads.exists_lone_iff {w : Curve.Path} {ps : List Piece} (h : Reads w ps)
    (hps : ∀ c, Piece.char c ∈ ps → c = 'F') : (∃ i, Lone w i) ↔ Token.slot 1 ∈ gather 0 ps := by
  have hcovered : ∀ i, (ps.flatMap leftover)[i]? = some none ↔ Covered w i := by
    intro i
    obtain ⟨hin, hout⟩ := h.getElem?_leftover i
    refine ⟨fun hnone => ?_, hin⟩
    by_contra hfree
    rw [hout hfree] at hnone
    simp at hnone
  have hfree : ∀ i, (∃ c, (ps.flatMap leftover)[i]? = some (some c)) ↔ w[i]? = some 'F' ∧ ¬ Covered w i := by
    intro i
    constructor
    · rintro ⟨c, hc⟩
      have hstep := hps c (some_mem_leftover.mp (List.mem_of_getElem? hc))
      subst hstep
      exact h.some_some_iff.mp hc
    · exact fun hi => ⟨'F', h.some_some_iff.mpr hi⟩
  have hlength : ∀ i, (i < w.length → Covered w i) ↔ ∀ c, (ps.flatMap leftover)[i]? ≠ some (some c) := by
    intro i
    constructor
    · intro hin c hc
      obtain ⟨hw, hout⟩ := h.some_some_iff.mp hc
      exact hout (hin (List.getElem?_eq_some_iff.mp hw).1)
    · intro hnone hlt
      by_contra hout
      exact hnone _ (h.some_some_iff.mpr ⟨List.getElem?_eq_getElem hlt, hout⟩)
  rw [slot_one_mem_gather, Single, or_iff_right fun hfirst => Nat.zero_ne_one hfirst.1]
  refine exists_congr fun i => ?_
  rw [Lone, ← hlength, hfree, and_assoc]
  simp only [hcovered, implies_true, true_and]

end Piece

namespace Token

/-- Reading a path of steps and turning characters. It succeeds exactly where the path after its first cell is made of
turns and slots, which are then unique. Else it fails for a character that turns outside of all turns, or, if there is
none, for a step alone between turns and the ends. -/
theorem tokenize_eq_ok_iff {w : Curve.Path} (hw : ∀ c ∈ w, c = 'F' ∨ c = '+' ∨ c = '-') :
    (∀ ts, Token.tokenize ('F' :: w) = .ok (start :: ts) ↔ Spells ts w) ∧
    (∀ ts us, Spells ts w → Spells us w → ts = us) ∧
    ((∃ seen, Token.tokenize ('F' :: w) = .error (.unresolvedTurns (String.ofList ('I' :: ' ' :: w)) seen)) ↔
      ∃ i, Loose w i) ∧
    ((∃ seen, Token.tokenize ('F' :: w) = .error (.singleForward (String.ofList ('I' :: ' ' :: w)) seen)) ↔
      (¬ ∃ i, Loose w i) ∧ ∃ i, Lone w i) ∧
    ((∃ ts, Spells ts w) ∨ (∃ i, Loose w i) ∨ ∃ i, Lone w i) := by
  obtain ⟨ps, hps⟩ := Piece.exists_reads w
  obtain ⟨seen, heq⟩ := hps.tokenize_eq hw
  have hunique : ∀ ts us, Spells ts w → Spells us w → ts = us := by
    intro ts us hts hus
    have hread := hts.tokenize.symm.trans hus.tokenize
    simpa using hread
  rw [hps.exists_loose_iff]
  by_cases hloose : Piece.char '+' ∈ ps ∨ Piece.char '-' ∈ ps
  · rw [if_pos hloose] at heq
    refine ⟨fun ts => ⟨fun hok => absurd (heq.symm.trans hok) nofun, Spells.tokenize⟩, hunique, ?_⟩
    simp [heq, hloose]
  · rw [if_neg hloose] at heq
    rw [hps.exists_lone_iff (hps.eq_step hw hloose)]
    by_cases hone : slot 1 ∈ Piece.gather 0 ps
    · rw [if_pos hone] at heq
      refine ⟨fun ts => ⟨fun hok => absurd (heq.symm.trans hok) nofun, Spells.tokenize⟩, hunique, ?_⟩
      simp [heq, hloose, hone]
    · rw [if_neg hone] at heq
      have hspells : Spells (Piece.gather 0 ps) w :=
        hps.flatMap_cells ▸ Piece.spells_gather (hps.eq_step hw hloose) hone
      refine ⟨fun ts => ⟨fun hok => ?_, Spells.tokenize⟩, hunique, ?_⟩
      · have hts : Piece.gather 0 ps = ts := by simpa using heq.symm.trans hok
        exact hts ▸ hspells
      · simpa [heq, hloose, hone] using ⟨_, hspells⟩

theorem tokenize_eq_ok_iff_three_turns :
    (∀ c ∈ "FFF+F+FFFFFFF-F-FFFFFF+F+FF".toList, c = 'F' ∨ c = '+' ∨ c = '-') ∧
    Spells [turn .clockwise, slot 2, turn .anticlockwise, slot 3, turn .clockwise, slot 2]
      "FFF+F+FFFFFFF-F-FFFFFF+F+FF".toList ∧
    (∃ i, Loose "FFF+F+FFFF-F-FFF+F+FF".toList i) ∧ ∃ i, Lone "FFF+F+FFFFFF-F-FFFFFF+F+FF".toList i :=
  ⟨by simp, ((tokenize_eq_ok_iff (by simp)).1 _).mp rfl, (tokenize_eq_ok_iff (by simp)).2.2.1.mp ⟨_, rfl⟩,
    ((tokenize_eq_ok_iff (by simp)).2.2.2.1.mp ⟨_, rfl⟩).2⟩

end Token

end CodelCurve.Layout
