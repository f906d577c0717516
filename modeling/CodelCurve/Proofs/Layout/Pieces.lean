import CodelCurve.Layout.Token
import CodelCurve.Proofs.Curve.Course
import Mathlib.Data.List.Chain

/-! The pieces of a path. Reading a path replaces the cells of clockwise and then those of anticlockwise turns by words.
The cells of a turn begin nowhere inside those of another, so the two passes find every turn wherever it is and take
nothing from each other: the path is taken for turns and for characters between them, and the runs of these become
slots. -/

namespace CodelCurve

open Curve (ahead corner)

namespace Turn

/-- The steps ahead that a U-turn takes before its corner. -/
def setup : Turn → Nat
  | clockwise => 3
  | anticlockwise => 5

def letter : Turn → Char
  | clockwise => 'C'
  | anticlockwise => 'A'

theorem letter_ne_step (t : Turn) : t.letter ≠ 'F' := by
  cases t <;> decide

theorem mark_inj {t u : Turn} : t.mark = u.mark ↔ t = u := by
  cases t <;> cases u <;> decide

end Turn

/-! ### Replacing -/

namespace Text

variable {pattern replacement xs ys : List Char} {c : Char}

theorem replaceFrom_cons (h : ¬ pattern <+: c :: ys) :
    replaceFrom pattern replacement 0 (c :: ys) = c :: replaceFrom pattern replacement 0 ys := by
  rw [replaceFrom, if_neg fun hbegins => h (List.isPrefixOf_iff_prefix.mp hbegins)]

theorem replaceFrom_append (h : ∀ j < xs.length, ¬ pattern <+: xs.drop j ++ ys) :
    replaceFrom pattern replacement 0 (xs ++ ys) = xs ++ replaceFrom pattern replacement 0 ys := by
  induction xs with
  | nil => rfl
  | cons c xs ih =>
      have hfirst : ¬ pattern <+: c :: (xs ++ ys) := h 0 (Nat.zero_lt_succ _)
      rw [List.cons_append, replaceFrom_cons hfirst, ih fun j hj => h (j + 1) (Nat.succ_lt_succ hj), List.cons_append]

theorem replaceFrom_skip (xs ys : List Char) :
    replaceFrom pattern replacement xs.length (xs ++ ys) = replaceFrom pattern replacement 0 ys := by
  induction xs with
  | nil => rfl
  | cons c xs ih => exact ih

theorem replaceFrom_pattern (h : pattern ≠ []) (ys : List Char) :
    replaceFrom pattern replacement 0 (pattern ++ ys) = replacement ++ replaceFrom pattern replacement 0 ys := by
  obtain ⟨c, rest, rfl⟩ := List.exists_cons_of_ne_nil h
  have hbegins : (c :: rest).isPrefixOf (c :: (rest ++ ys)) = true :=
    List.isPrefixOf_iff_prefix.mpr ⟨ys, rfl⟩
  rw [List.cons_append, replaceFrom, hbegins, if_pos rfl, List.length_cons, Nat.add_sub_cancel, replaceFrom_skip]

/-! ### Words -/

theorem wordsFrom_cons (word : List Char) (c : Char) (rest : List Char) :
    wordsFrom word (c :: rest) =
      if isBlank c = true then
        if word.isEmpty = true then wordsFrom [] rest else word.reverse :: wordsFrom [] rest
      else wordsFrom (c :: word) rest := by
  cases word <;> rfl

theorem byteLength_ahead (n : Nat) : byteLength (ahead n) = n := by
  have hfold : ∀ total : Nat, (ahead n).foldl (fun total c => total + c.utf8Size) total = total + n := by
    induction n with
    | zero => exact fun total => rfl
    | succ n ih =>
        intro total
        show (ahead n).foldl _ (total + 1) = _
        rw [ih]
        omega
  rw [byteLength, hfold, Nat.zero_add]

end Text

namespace Layout

/-! ### The cells of turns -/

namespace Token

def cells : Token → Curve.Path
  | start => ahead 1
  | turn t => ahead t.setup ++ corner t
  | slot capacity => ahead capacity.toNat

def isSlot : Token → Bool
  | slot _ => true
  | _ => false

/-- Runs that end at other characters are the same run as far as one is a prefix of the other. -/
theorem prefix_ahead_iff {m c : Char} {xs ys : List Char} (hm : m ≠ 'F') (hc : c ≠ 'F') (n j : Nat) :
    ahead n ++ m :: xs <+: ahead j ++ c :: ys ↔ n = j ∧ m = c ∧ xs <+: ys := by
  induction n generalizing j with
  | zero =>
      cases j with
      | zero => simp [ahead]
      | succ j => simp [ahead, List.replicate_succ, hm]
  | succ n ih =>
      cases j with
      | zero => simp [ahead, List.replicate_succ, hc.symm]
      | succ j =>
          have hstep : ahead (n + 1) ++ m :: xs <+: ahead (j + 1) ++ c :: ys ↔
              ahead n ++ m :: xs <+: ahead j ++ c :: ys := by
            simp [ahead, List.replicate_succ]
          rw [hstep, ih, Nat.succ_inj]

theorem not_prefix_ahead {m : Char} {xs : List Char} (hm : m ≠ 'F') (n j : Nat) :
    ¬ ahead n ++ m :: xs <+: ahead j := by
  intro hbegins
  have hmem : m ∈ ahead j := hbegins.subset (List.mem_append_right _ List.mem_cons_self)
  exact hm (List.eq_of_mem_replicate hmem)

theorem cells_turn_append (t : Turn) (ys : List Char) :
    (turn t).cells ++ ys = ahead t.setup ++ t.mark :: 'F' :: t.mark :: ys := by
  simp [cells, corner]

theorem prefix_cells_append {t u : Turn} {ys : List Char} : (turn t).cells <+: (turn u).cells ++ ys ↔ t = u := by
  rw [cells_turn_append, cells, corner, prefix_ahead_iff t.mark_ne_step u.mark_ne_step, Turn.mark_inj]
  constructor
  · exact fun h => h.2.1
  · rintro rfl
    simp

theorem length_cells_turn (t : Turn) : (turn t).cells.length = t.setup + 3 := by
  simp [cells, corner, ahead]

/-- Inside of a turn a shorter run leads up to a mark. -/
theorem exists_drop_cells {u : Turn} {j : Nat} (hj : 0 < j) (hlt : j < (turn u).cells.length) (ys : List Char) :
    ∃ n zs, n < u.setup ∧ (turn u).cells.drop j ++ ys = ahead n ++ u.mark :: zs := by
  have hsetup : 3 ≤ u.setup := by cases u <;> decide
  have hlength : (ahead u.setup).length = u.setup := List.length_replicate
  rw [length_cells_turn] at hlt
  obtain hrun | ⟨k, hk, rfl⟩ : j < u.setup ∨ ∃ k < 3, j = u.setup + k :=
    (Nat.lt_or_ge j u.setup).imp_right fun hge => ⟨j - u.setup, by omega, by omega⟩
  · refine ⟨u.setup - j, 'F' :: u.mark :: ys, by omega, ?_⟩
    rw [cells, List.drop_append_of_le_length (by omega), ahead, List.drop_replicate, List.append_assoc]
    rfl
  · have hdrop := @List.drop_length_add_append _ (ahead u.setup) (corner u) k
    rw [hlength] at hdrop
    rw [cells, hdrop]
    obtain rfl | rfl | rfl : k = 0 ∨ k = 1 ∨ k = 2 := by omega
    · exact ⟨0, 'F' :: u.mark :: ys, by omega, rfl⟩
    · exact ⟨1, ys, by omega, rfl⟩
    · exact ⟨0, ys, by omega, rfl⟩

/-- The cells of a turn do not begin inside those of a turn. -/
theorem not_prefix_drop_cells (t u : Turn) {j : Nat} (hj : 0 < j) (hlt : j < (turn u).cells.length) (ys : List Char) :
    ¬ (turn t).cells <+: (turn u).cells.drop j ++ ys := by
  obtain ⟨n, zs, hn, heq⟩ := exists_drop_cells hj hlt ys
  rw [heq, cells, corner, prefix_ahead_iff t.mark_ne_step u.mark_ne_step, Turn.mark_inj]
  rintro ⟨rfl, rfl, _⟩
  exact Nat.lt_irrefl _ hn

end Token

/-! ### The pieces of a path -/

/-- What a path is taken for, from its beginning on: all cells of a turn, or a character that belongs to no turn. -/
inductive Piece where
  | turn (t : Turn)
  | char (c : Char)
  deriving DecidableEq

namespace Piece

def cells : Piece → Curve.Path
  | turn t => (Token.turn t).cells
  | char c => [c]

/-- The text of a piece when the turns of some kinds are set apart as words. -/
def shown (found : Turn → Bool) : Piece → List Char
  | turn t => if found t then [' ', t.letter, ' '] else (Token.turn t).cells
  | char c => [c]

/-- A path is taken for pieces: a turn wherever one begins, and else a character. -/
inductive Reads : Curve.Path → List Piece → Prop where
  | nil : Reads [] []
  | turn (t : Turn) {w : Curve.Path} {ps : List Piece} (rest : Reads w ps) :
    Reads ((Token.turn t).cells ++ w) (.turn t :: ps)
  | char (c : Char) {w : Curve.Path} {ps : List Piece} (free : ∀ t, ¬ (Token.turn t).cells <+: c :: w)
    (rest : Reads w ps) : Reads (c :: w) (.char c :: ps)

theorem exists_reads (w : Curve.Path) : ∃ ps, Reads w ps := by
  induction hn : w.length using Nat.strong_induction_on generalizing w with
  | _ n ih =>
      by_cases hturn : ∃ t, (Token.turn t).cells <+: w
      · obtain ⟨t, rest, rfl⟩ := hturn
        obtain ⟨ps, hps⟩ := ih rest.length (by rw [← hn, List.length_append, Token.length_cells_turn]; omega) rest rfl
        exact ⟨_, hps.turn t⟩
      · cases w with
        | nil => exact ⟨[], .nil⟩
        | cons c w =>
            obtain ⟨ps, hps⟩ := ih w.length (by rw [← hn, List.length_cons]; omega) w rfl
            exact ⟨_, hps.char c fun t ht => hturn ⟨t, ht⟩⟩

theorem Reads.flatMap_cells {w : Curve.Path} {ps : List Piece} (h : Reads w ps) : ps.flatMap cells = w := by
  induction h with
  | nil => rfl
  | turn t _ ih => rw [List.flatMap_cons, ih, cells]
  | char c _ _ ih => rw [List.flatMap_cons, ih, cells, List.singleton_append]

/-- Setting turns apart makes no text without blanks that was not there before. -/
theorem prefix_flatMap_cells {found : Turn → Bool} {text : List Char} (hblank : ' ' ∉ text) {ps : List Piece}
    (h : text <+: ps.flatMap (shown found)) : text <+: ps.flatMap cells := by
  have happend : ∀ {text first xs ys : List Char}, ' ' ∉ text →
      (∀ rest, ' ' ∉ rest → rest <+: xs → rest <+: ys) → text <+: first ++ xs → text <+: first ++ ys := by
    intro text first xs ys hblank hrest hbegins
    obtain hshort | ⟨rest, rfl⟩ := List.prefix_or_prefix_of_prefix hbegins (List.prefix_append first xs)
    · exact hshort.trans (List.prefix_append first ys)
    · rw [List.prefix_append_right_inj] at hbegins ⊢
      exact hrest rest (fun hmem => hblank (List.mem_append_right _ hmem)) hbegins
  induction ps generalizing text with
  | nil => exact h
  | cons p ps ih =>
      rw [List.flatMap_cons] at h ⊢
      cases p with
      | char c => exact happend hblank (fun _ hrest => ih hrest) h
      | turn t =>
          rw [shown] at h
          split at h
          · -- The word begins with a blank.
            cases text with
            | nil => exact List.nil_prefix
            | cons c text =>
                obtain ⟨rfl, _⟩ := List.cons_prefix_cons.mp h
                exact absurd List.mem_cons_self hblank
          · exact happend hblank (fun _ hrest => ih hrest) h

/-- A pass for the turns of one kind sets apart these and no others. -/
theorem Reads.replaceFrom_shown {w : Curve.Path} {ps : List Piece} (h : Reads w ps) {found : Turn → Bool} {u : Turn}
    (hnew : found u = false) :
    Text.replaceFrom (Token.turn u).cells [' ', u.letter, ' '] 0 (ps.flatMap (shown found)) =
      ps.flatMap (shown fun t => found t || t == u) := by
  have hhead : ∀ {c : Char} {ys : List Char}, c ≠ 'F' → ¬ (Token.turn u).cells <+: c :: ys := by
    intro c ys hc hbegins
    cases u <;> exact hc (List.cons_prefix_cons.mp hbegins).1.symm
  have hblank : ' ' ∉ (Token.turn u).cells := by cases u <;> decide
  have hne : (Token.turn u).cells ≠ [] := by cases u <;> simp [Token.cells, corner]
  induction h with
  | nil => rfl
  | turn t rest ih =>
      rw [List.flatMap_cons, List.flatMap_cons, shown, shown]
      by_cases hfound : found t = true
      · rw [if_pos hfound, if_pos (by rw [hfound, Bool.true_or]), ← ih]
        show Text.replaceFrom _ _ 0 (' ' :: t.letter :: ' ' :: _) = _
        rw [Text.replaceFrom_cons (hhead (by decide)), Text.replaceFrom_cons (hhead t.letter_ne_step),
          Text.replaceFrom_cons (hhead (by decide))]
        rfl
      · rw [if_neg hfound]
        by_cases hsame : t = u
        · subst hsame
          rw [if_pos (by simp), Text.replaceFrom_pattern hne, ih]
        · -- A turn of the other kind is copied whole.
          rw [if_neg (by simp [hfound, hsame]), ← ih]
          refine Text.replaceFrom_append fun j hj => ?_
          cases j with
          | zero => exact fun hbegins => hsame (Token.prefix_cells_append.mp hbegins).symm
          | succ j => exact Token.not_prefix_drop_cells u t (Nat.succ_pos j) hj _
  | @char c w ps free rest ih =>
      rw [List.flatMap_cons, List.flatMap_cons, shown, shown, List.singleton_append, List.singleton_append, ← ih]
      -- What follows may hold words already, but the pattern would have begun here before these were put in.
      refine Text.replaceFrom_cons fun hbegins => free u ?_
      have hcells : (Piece.char c :: ps).flatMap cells = c :: w := (rest.char c free).flatMap_cells
      rw [← hcells]
      exact prefix_flatMap_cells hblank hbegins

/-! ### The segments of pieces -/

/-- A run of steps as a slot, when there are any. -/
def run (steps : Nat) : List Token := if steps = 0 then [] else [.slot steps]

/-- The turns among pieces and the runs between them, given the length of the run that leads up to them. -/
def gather : Nat → List Piece → List Token
  | steps, [] => run steps
  | steps, turn t :: ps => run steps ++ .turn t :: gather 0 ps
  | steps, char _ :: ps => gather (steps + 1) ps

def word : Token → List Char
  | .start => ['I']
  | .turn t => [t.letter]
  | .slot capacity => ahead capacity.toNat

theorem wordsFrom_shown {ps : List Piece} (hps : ∀ c, char c ∈ ps → c = 'F') (steps : Nat) :
    Text.wordsFrom (ahead steps) (ps.flatMap (shown fun _ => true)) = (gather steps ps).map word := by
  have hrun : ∀ steps, (run steps).map word = if steps = 0 then [] else [ahead steps] := by
    intro steps
    rw [run]
    split <;> rfl
  have hreverse : ∀ steps, (ahead steps).reverse = ahead steps := fun steps => List.reverse_replicate
  induction ps generalizing steps with
  | nil =>
      rw [gather, hrun]
      cases steps with
      | zero => rfl
      | succ steps =>
          show [(ahead (steps + 1)).reverse] = _
          rw [hreverse]
          rfl
  | cons p ps ih =>
      have hrest : ∀ c, char c ∈ ps → c = 'F' := fun c hc => hps c (List.mem_cons_of_mem _ hc)
      cases p with
      | char c =>
          rw [hps c List.mem_cons_self, List.flatMap_cons, shown, List.singleton_append, Text.wordsFrom_cons,
            if_neg (by decide), gather, ← ih hrest]
          rfl
      | turn t =>
          have hletter : Text.isBlank t.letter = false := by cases t <;> decide
          rw [List.flatMap_cons, shown, if_pos rfl, gather, List.map_append, List.map_cons, ← ih hrest, hrun]
          show Text.wordsFrom (ahead steps) (' ' :: t.letter :: ' ' :: _) = _
          have hword : ∀ text, Text.wordsFrom [] (t.letter :: ' ' :: text) = [t.letter] :: Text.wordsFrom [] text := by
            intro text
            rw [Text.wordsFrom_cons, hletter, Text.wordsFrom_cons]
            rfl
          rw [Text.wordsFrom_cons, if_pos (by decide), hword, hreverse]
          cases steps <;> rfl

theorem mem_gather {steps : Nat} {ps : List Piece} {t : Token} (h : t ∈ gather steps ps) :
    (∃ u, t = .turn u) ∨ ∃ n : Nat, t = .slot (n + 1 : Nat) := by
  have hrun : ∀ {steps : Nat}, t ∈ run steps → ∃ n : Nat, t = .slot (n + 1 : Nat) := by
    intro steps ht
    cases steps with
    | zero => cases ht
    | succ n => exact ⟨n, List.mem_singleton.mp ht⟩
  induction ps generalizing steps with
  | nil => exact .inr (hrun h)
  | cons p ps ih =>
      cases p with
      | char c => exact ih h
      | turn u =>
          obtain h | h := List.mem_append.mp h
          · exact .inr (hrun h)
          · obtain rfl | h := List.mem_cons.mp h
            · exact .inl ⟨u, rfl⟩
            · exact ih h

end Piece

namespace Token

theorem ofWord?_ahead {n : Nat} (hn : 2 ≤ n) : ofWord? (ahead n) = some (slot n) := by
  obtain ⟨k, rfl⟩ : ∃ k, n = k + 2 := ⟨n - 2, by omega⟩
  have hword : ∀ c : Char, ahead (k + 2) ≠ [c] := by
    intro c hc
    have hlength := congrArg List.length hc
    simp [ahead] at hlength
  rw [ofWord?, if_neg (hword _), if_neg (hword _), if_neg (hword _), Text.byteLength_ahead, if_neg (by omega)]

theorem ofWord?_letter (t : Turn) : ofWord? [t.letter] = some (turn t) := by
  cases t <;> rfl

/-- Only a single step has a word of no segment. -/
theorem mapM_ofWord?_word {ts : List Token} (hts : ∀ t ∈ ts, (∃ u, t = turn u) ∨ ∃ n : Nat, t = slot (n + 1 : Nat)) :
    (ts.map Piece.word).mapM ofWord? = if slot 1 ∈ ts then none else some ts := by
  induction ts with
  | nil => rfl
  | cons t ts ih =>
      rw [List.map_cons, List.mapM_cons, ih fun u hu => hts u (List.mem_cons_of_mem _ hu)]
      obtain ⟨u, rfl⟩ | ⟨n, rfl⟩ := hts t List.mem_cons_self
      · rw [Piece.word, ofWord?_letter]
        by_cases hone : slot 1 ∈ ts <;> simp [hone]
      · cases n with
        | zero =>
            have hstep : ofWord? (Piece.word (slot (0 + 1 : Nat))) = none := rfl
            have hmem : slot 1 ∈ slot (0 + 1 : Nat) :: ts := List.mem_cons_self
            rw [hstep, if_pos hmem]
            rfl
        | succ n =>
            have hlonger : slot 1 ≠ slot (n + 1 + 1 : Nat) := by
              rw [ne_eq, slot.injEq]
              omega
            rw [Piece.word, Int.toNat_natCast, ofWord?_ahead (by omega)]
            by_cases hone : slot 1 ∈ ts
            · rw [if_pos hone, if_pos (List.mem_cons_of_mem _ hone)]
              rfl
            · rw [if_neg hone, if_neg fun hmem => (List.mem_cons.mp hmem).elim hlonger hone]
              rfl

end Token

namespace Piece

theorem flatMap_shown_none (ps : List Piece) : ps.flatMap (shown fun _ => false) = ps.flatMap cells := by
  have hshown : shown (fun _ => false) = cells := by
    funext p
    cases p <;> rfl
  rw [hshown]

theorem mem_flatMap_shown {c : Char} (hc : c = '+' ∨ c = '-') (ps : List Piece) :
    c ∈ ps.flatMap (shown fun _ => true) ↔ char c ∈ ps := by
  have hletter : ∀ t : Turn, c ∉ shown (fun _ => true) (turn t) := by
    intro t
    obtain rfl | rfl := hc <;> cases t <;> decide
  rw [List.mem_flatMap]
  constructor
  · rintro ⟨p, hp, hmem⟩
    cases p with
    | turn t => exact absurd hmem (hletter t)
    | char d => rwa [List.mem_singleton.mp hmem]
  · exact fun hmem => ⟨_, hmem, List.mem_singleton_self c⟩

theorem Reads.markTurns_eq {w : Curve.Path} {ps : List Piece} (h : Reads w ps) :
    Token.markTurns ('I' :: ' ' :: w) = 'I' :: ' ' :: ps.flatMap (shown fun _ => true) := by
  have hhead : ∀ (t : Turn) (ys : List Char),
      Text.replace (Token.turn t).cells [' ', t.letter, ' '] ('I' :: ' ' :: ys) =
        'I' :: ' ' :: Text.replaceFrom (Token.turn t).cells [' ', t.letter, ' '] 0 ys := by
    intro t ys
    cases t <;> rfl
  have hkinds : (fun t : Turn => (false || t == .clockwise) || t == .anticlockwise) = fun _ => true := by
    funext t
    cases t <;> rfl
  have hpasses : ∀ text, Token.markTurns text =
      Text.replace (Token.turn .anticlockwise).cells [' ', Turn.anticlockwise.letter, ' ']
        (Text.replace (Token.turn .clockwise).cells [' ', Turn.clockwise.letter, ' '] text) := fun _ => rfl
  rw [hpasses, ← h.flatMap_cells, ← flatMap_shown_none, hhead, h.replaceFrom_shown rfl, hhead, h.replaceFrom_shown rfl,
    hkinds]

theorem Reads.eq_step {w : Curve.Path} {ps : List Piece} (h : Reads w ps) (hw : ∀ c ∈ w, c = 'F' ∨ c = '+' ∨ c = '-')
    (hloose : ¬ (Piece.char '+' ∈ ps ∨ Piece.char '-' ∈ ps)) (c : Char) (hc : Piece.char c ∈ ps) : c = 'F' := by
  have hmem : c ∈ w := by
    rw [← h.flatMap_cells]
    exact List.mem_flatMap.mpr ⟨_, hc, List.mem_singleton_self c⟩
  obtain rfl | rfl | rfl := hw c hmem
  · rfl
  · exact absurd (.inl hc) hloose
  · exact absurd (.inr hc) hloose

/-- What the pieces of a path decide about its reading. -/
theorem Reads.tokenize_eq {w : Curve.Path} {ps : List Piece} (h : Reads w ps)
    (hw : ∀ c ∈ w, c = 'F' ∨ c = '+' ∨ c = '-') :
    ∃ seen, Token.tokenize ('F' :: w) =
      if Piece.char '+' ∈ ps ∨ Piece.char '-' ∈ ps then .error (.unresolvedTurns (String.ofList ('I' :: ' ' :: w)) seen)
      else if .slot 1 ∈ gather 0 ps then .error (.singleForward (String.ofList ('I' :: ' ' :: w)) seen)
      else .ok (.start :: gather 0 ps) := by
  have hafter : Token.afterFirst ('F' :: w) = w := rfl
  have hany : (('I' :: ' ' :: ps.flatMap (shown fun _ => true)).any fun c => c = '+' || c = '-') =
      decide (Piece.char '+' ∈ ps ∨ Piece.char '-' ∈ ps) := by
    rw [Bool.eq_iff_iff, List.any_eq_true, decide_eq_true_iff, ← mem_flatMap_shown (.inl rfl),
      ← mem_flatMap_shown (.inr rfl)]
    generalize ps.flatMap (shown fun _ => true) = text
    simp [and_or_left, exists_or]
  refine ⟨String.ofList (Text.trim ('I' :: ' ' :: ps.flatMap (shown fun _ => true))), ?_⟩
  simp only [Token.tokenize, hafter, h.markTurns_eq, hany]
  by_cases hloose : Piece.char '+' ∈ ps ∨ Piece.char '-' ∈ ps
  · simp only [hloose, decide_true, if_true]
  · have hwords : Text.words ('I' :: ' ' :: ps.flatMap (shown fun _ => true)) = ['I'] :: (gather 0 ps).map word := by
      rw [← wordsFrom_shown (h.eq_step hw hloose)]
      rfl
    have hstart : Token.ofWord? ['I'] = some .start := rfl
    rw [hwords, List.mapM_cons, hstart, Token.mapM_ofWord?_word fun t => mem_gather]
    by_cases hone : .slot 1 ∈ gather 0 ps <;> simp [hloose, hone]

end Piece

/-! ### Paths made of segments -/

namespace Token

/-- What a path is made of after its first cell: turns and slots. Slots have at least two cells, and no two of them stand
next to each other. -/
structure Spells (ts : List Token) (w : Curve.Path) : Prop where
  cells : ts.flatMap Token.cells = w
  roomy : ∀ capacity, slot capacity ∈ ts → 2 ≤ capacity
  apart : ts.IsChain fun t u => ¬ (t.isSlot = true ∧ u.isSlot = true)
  inner : start ∉ ts

theorem Spells.tail {t : Token} {ts : List Token} {w : Curve.Path} (h : Spells (t :: ts) w) :
    Spells ts (ts.flatMap Token.cells) where
  cells := rfl
  roomy capacity hmem := h.roomy capacity (List.mem_cons_of_mem _ hmem)
  apart := h.apart.tail
  inner hmem := h.inner (List.mem_cons_of_mem _ hmem)

def pieces : Token → List Piece
  | start => [.char 'F']
  | turn t => [.turn t]
  | slot capacity => List.replicate capacity.toNat (.char 'F')

/-- With further steps in front of them, no turn begins at segments. -/
theorem not_prefix_ahead_cells {ts : List Token} (hts : start ∉ ts) (t : Turn) {n : Nat} (hn : 1 ≤ n) :
    ¬ (turn t).cells <+: ahead n ++ ts.flatMap cells := by
  induction ts generalizing n with
  | nil =>
      rw [List.flatMap_nil, List.append_nil]
      exact not_prefix_ahead t.mark_ne_step _ n
  | cons u ts ih =>
      rw [List.mem_cons, not_or] at hts
      rw [List.flatMap_cons]
      cases u with
      | start => exact absurd rfl hts.1
      | slot capacity =>
          show ¬ _ <+: ahead n ++ (ahead capacity.toNat ++ ts.flatMap cells)
          rw [← List.append_assoc, ← Curve.ahead_add]
          exact ih hts.2 (by omega)
      | turn u =>
          -- The run is longer than the set-up of the turn that it leads up to.
          rw [cells_turn_append, ← List.append_assoc, ← Curve.ahead_add, cells, corner,
            prefix_ahead_iff t.mark_ne_step u.mark_ne_step, Turn.mark_inj]
          rintro ⟨hsteps, rfl, _⟩
          omega

theorem reads_pieces {ts : List Token} (hts : start ∉ ts) : Piece.Reads (ts.flatMap cells) (ts.flatMap pieces) := by
  induction ts with
  | nil => exact .nil
  | cons t ts ih =>
      rw [List.mem_cons, not_or] at hts
      rw [List.flatMap_cons, List.flatMap_cons]
      cases t with
      | start => exact absurd rfl hts.1
      | turn t => exact (ih hts.2).turn t
      | slot capacity =>
          show Piece.Reads (ahead capacity.toNat ++ _) (List.replicate capacity.toNat (.char 'F') ++ _)
          generalize capacity.toNat = steps
          induction steps with
          | zero => exact ih hts.2
          | succ steps ihsteps => exact ihsteps.char 'F' fun t => not_prefix_ahead_cells hts.2 t (Nat.le_add_left 1 steps)

end Token

namespace Piece

theorem gather_steps (n steps : Nat) (ps : List Piece) :
    gather n (List.replicate steps (char 'F') ++ ps) = gather (n + steps) ps := by
  induction steps generalizing n with
  | zero => rfl
  | succ steps ih =>
      show gather (n + 1) (List.replicate steps (char 'F') ++ ps) = _
      rw [ih, Nat.add_assoc, Nat.add_comm 1]

/-- A run that was begun before segments is closed by their first turn. -/
theorem gather_pieces {ts : List Token} {w : Curve.Path} (h : Token.Spells ts w) {steps : Nat}
    (hsteps : ∀ t ∈ ts.head?, t.isSlot = true → steps = 0) :
    gather steps (ts.flatMap Token.pieces) = run steps ++ ts := by
  induction ts generalizing w steps with
  | nil => exact (List.append_nil _).symm
  | cons t ts ih =>
      rw [List.flatMap_cons]
      cases t with
      | start => exact absurd List.mem_cons_self h.inner
      | turn t =>
          show run steps ++ .turn t :: gather 0 (ts.flatMap Token.pieces) = _
          rw [ih h.tail fun _ _ _ => rfl]
          rfl
      | slot capacity =>
          have htwo := h.roomy capacity List.mem_cons_self
          have hnext := (List.isChain_cons.mp h.apart).1
          rw [hsteps _ rfl rfl, Token.pieces, gather_steps, ih h.tail fun t ht hslot => absurd ⟨rfl, hslot⟩ (hnext t ht),
            run, if_neg (by omega), Nat.zero_add, Int.toNat_of_nonneg (by omega)]
          rfl

theorem flatMap_cells_gather {ps : List Piece} (hps : ∀ c, char c ∈ ps → c = 'F') (steps : Nat) :
    (gather steps ps).flatMap Token.cells = ahead steps ++ ps.flatMap cells := by
  have hrun : ∀ steps, (run steps).flatMap Token.cells = ahead steps := by
    intro steps
    cases steps with
    | zero => rfl
    | succ steps => exact List.append_nil _
  induction ps generalizing steps with
  | nil => rw [gather, hrun, List.flatMap_nil, List.append_nil]
  | cons p ps ih =>
      have hrest := ih fun c hc => hps c (List.mem_cons_of_mem _ hc)
      cases p with
      | char c =>
          rw [gather, hrest, hps c List.mem_cons_self, List.flatMap_cons, ← List.append_assoc, Curve.ahead_add]
          rfl
      | turn t =>
          rw [gather, List.flatMap_append, List.flatMap_cons, hrest, hrun, List.flatMap_cons]
          rfl

theorem isChain_gather (steps : Nat) (ps : List Piece) :
    (gather steps ps).IsChain fun t u => ¬ (t.isSlot = true ∧ u.isSlot = true) := by
  induction ps generalizing steps with
  | nil =>
      rw [gather, run]
      split
      · exact .nil
      · exact .singleton _
  | cons p ps ih =>
      cases p with
      | char c => exact ih (steps + 1)
      | turn t =>
          have hturn : (.turn t :: gather 0 ps).IsChain fun t u => ¬ (t.isSlot = true ∧ u.isSlot = true) :=
            (ih 0).cons fun _ _ h => by cases h.1
          rw [gather, run]
          split
          · exact hturn
          · exact hturn.cons_cons fun h => by cases h.2

theorem spells_gather {ps : List Piece} (hps : ∀ c, char c ∈ ps → c = 'F') (hone : .slot 1 ∉ gather 0 ps) :
    Token.Spells (gather 0 ps) (ps.flatMap cells) where
  cells := flatMap_cells_gather hps 0
  roomy capacity hmem := by
    obtain ⟨u, hu⟩ | ⟨n, hn⟩ := mem_gather hmem
    · cases hu
    · rw [Token.slot.injEq] at hn
      subst hn
      cases n with
      | zero => exact absurd hmem hone
      | succ n => omega
  apart := isChain_gather 0 ps
  inner hmem := by
    obtain ⟨u, hu⟩ | ⟨n, hn⟩ := mem_gather hmem
    · cases hu
    · cases hn

end Piece

namespace Token

theorem Spells.mem {ts : List Token} {w : Curve.Path} (h : Spells ts w) (c : Char) (hc : c ∈ w) :
    c = 'F' ∨ c = '+' ∨ c = '-' := by
  have hahead : ∀ {n : Nat}, c ∈ ahead n → c = 'F' := List.eq_of_mem_replicate
  rw [← h.cells] at hc
  obtain ⟨t, _, ht⟩ := List.mem_flatMap.mp hc
  cases t with
  | start => exact .inl (hahead ht)
  | slot capacity => exact .inl (hahead ht)
  | turn t =>
      obtain hrun | hcorner := List.mem_append.mp ht
      · exact .inl (hahead hrun)
      · have hmark : c = t.mark ∨ c = 'F' := by
          simp only [corner, List.mem_cons, List.not_mem_nil, or_false] at hcorner
          tauto
        cases t with
        | clockwise => exact hmark.elim (.inr ∘ .inl) .inl
        | anticlockwise => exact hmark.elim (.inr ∘ .inr) .inl

theorem eq_step_of_mem_pieces {ts : List Token} {c : Char} (hc : .char c ∈ ts.flatMap pieces) : c = 'F' := by
  obtain ⟨t, _, ht⟩ := List.mem_flatMap.mp hc
  cases t with
  | start => exact Piece.char.inj (List.mem_singleton.mp ht)
  | turn t => cases List.mem_singleton.mp ht
  | slot capacity => exact Piece.char.inj (List.eq_of_mem_replicate ht)

/-- Turns and slots are read as what they are. -/
theorem Spells.tokenize {ts : List Token} {w : Curve.Path} (h : Spells ts w) :
    Token.tokenize ('F' :: w) = .ok (start :: ts) := by
  have hreads : Piece.Reads w (ts.flatMap pieces) := h.cells ▸ reads_pieces h.inner
  have hgather : Piece.gather 0 (ts.flatMap pieces) = ts := Piece.gather_pieces h fun _ _ _ => rfl
  have hone : slot 1 ∉ ts := fun hmem => absurd (h.roomy 1 hmem) (by decide)
  have hloose : ¬ (Piece.char '+' ∈ ts.flatMap pieces ∨ Piece.char '-' ∈ ts.flatMap pieces) := by
    rintro (hmem | hmem) <;> exact absurd (eq_step_of_mem_pieces hmem) (by decide)
  obtain ⟨seen, heq⟩ := hreads.tokenize_eq h.mem
  rw [heq, if_neg hloose, hgather, if_neg hone]

end Token

end Layout

end CodelCurve
