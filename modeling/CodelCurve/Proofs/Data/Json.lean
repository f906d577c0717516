import CodelCurve.Data.Json
import CodelCurve.Proofs.Data.Text
import Mathlib.Data.List.DropRight
import Mathlib.Tactic.IntervalCases

/-! The JSON texts of values that are made of numbers, names and maps. Between the parts of a text blanks may stand as
they like. Wherever they stand, the value is read back: a number ends before a blank or a mark, and a name stands for
itself between quotes. What is written is a text of the value, with a line for each member. All texts are plain ASCII, so
that their bytes are their characters. -/

namespace CodelCurve.Json

open Text (isDigit decimal isDigit_of_mem_toDigits decimal_toDigits head?_toDigits_ne)

/-! ### Numbers -/

/-- What may follow a number in a text. -/
def Stops : List Char → Prop
  | [] => True
  | c :: _ => isSpace c ∨ c = ',' ∨ c = '\x7d' ∨ c = '"'

section Stops

variable {rest : List Char}

theorem eq_of_isSpace {c : Char} (h : isSpace c) : c = ' ' ∨ c = '\n' ∨ c = '\t' ∨ c = '\r' := by
  simpa [isSpace, or_assoc] using h

theorem Stops.takeWhile (h : Stops rest) : rest.takeWhile isDigit = [] := by
  cases rest with
  | nil => rfl
  | cons c rest =>
      rcases h with h | rfl | rfl | rfl
      · rcases eq_of_isSpace h with rfl | rfl | rfl | rfl <;> rfl
      all_goals rfl

theorem Stops.dropWhile (h : Stops rest) : rest.dropWhile isDigit = rest := by
  cases rest with
  | nil => rfl
  | cons c rest =>
      rcases h with h | rfl | rfl | rfl
      · rcases eq_of_isSpace h with rfl | rfl | rfl | rfl <;> rfl
      all_goals rfl

theorem Stops.tail (h : Stops rest) : tail rest = some (false, rest) := by
  cases rest with
  | nil => rfl
  | cons c rest =>
      rcases h with h | rfl | rfl | rfl
      · rcases eq_of_isSpace h with rfl | rfl | rfl | rfl <;> rfl
      all_goals rfl

theorem natural_toDigits (n : Nat) (h : Stops rest) : natural (Nat.toDigits 10 n ++ rest) = some (n, rest) := by
  rcases Nat.eq_zero_or_pos n with rfl | hn
  · rfl
  · have hdigits : ∀ c ∈ Nat.toDigits 10 n, isDigit c := fun c => isDigit_of_mem_toDigits
    obtain ⟨c, cs, hcons⟩ := List.exists_cons_of_ne_nil (@Nat.toDigits_ne_nil n 10)
    have hhead : ∀ text, Nat.toDigits 10 n ++ rest = '0' :: text → False := by
      intro text htext
      have hne := head?_toDigits_ne hn
      rw [hcons] at htext hne
      exact hne (congrArg some (List.cons.inj htext).1)
    rw [natural.eq_2 _ hhead, List.takeWhile_append_of_pos hdigits, List.dropWhile_append_of_pos hdigits, h.takeWhile,
      h.dropWhile, List.append_nil, decimal_toDigits, hcons]
    rfl

/-- Reads a number after its sign. -/
def unsigned (negative : Bool) (digits : List Char) : Option (Datum × List Char) :=
  match natural digits with
  | none => none
  | some (n, rest) => (Json.tail rest).map fun (isReal, rest) => (numberValue negative n isReal, rest)

theorem number_of_ne {c : Char} (hc : c ≠ '-') (text : List Char) : number (c :: text) = unsigned false (c :: text) := by
  refine congrArg (fun read : Bool × List Char => unsigned read.1 read.2) (?_ : _ = (false, c :: text))
  split
  next heq => exact absurd (List.cons.inj heq).1 hc
  next => rfl

theorem unsigned_toDigits (negative : Bool) (n : Nat) (h : Stops rest) :
    unsigned negative (Nat.toDigits 10 n ++ rest) = some (numberValue negative n false, rest) := by
  simp only [unsigned, natural_toDigits n h, h.tail, Option.map_some]

theorem scalar_nat (n : Nat) : scalar (.nat n) = Nat.toDigits 10 n := by
  show (toString n).toList = Nat.toDigits 10 n
  rw [Nat.toString_eq_ofList_toDigits, String.toList_ofList]

theorem scalar_int {n : Int} (hn : n < 0) : scalar (.int n) = '-' :: Nat.toDigits 10 (-n).toNat := by
  show (toString n).toList = '-' :: Nat.toDigits 10 (-n).toNat
  rw [Int.toString_eq_repr, Int.repr_eq_if, if_neg (by omega), String.toList_append, Nat.repr_eq_ofList_toDigits,
    String.toList_ofList, String.toList_ofList]
  rfl

theorem number_scalar_nat (n : Nat) (h : Stops rest) : number (scalar (.nat n) ++ rest) = some (.nat n, rest) := by
  obtain ⟨c, cs, hcons⟩ := List.exists_cons_of_ne_nil (@Nat.toDigits_ne_nil n 10)
  have hplain : c ≠ '-' := by
    rintro rfl
    exact absurd (isDigit_of_mem_toDigits (n := n) (hcons ▸ List.mem_cons_self)) (by decide)
  have hread := unsigned_toDigits false n h
  rw [hcons, List.cons_append, ← number_of_ne hplain] at hread
  rw [scalar_nat, hcons, List.cons_append, hread]
  rfl

theorem number_scalar_int {n : Int} (hn : n < 0) (h : Stops rest) :
    number (scalar (.int n) ++ rest) = some (.int n, rest) := by
  have hvalue : numberValue true (-n).toNat false = .int n := by
    have hnonzero : (-n).toNat ≠ 0 := by omega
    have hnegated : -((-n).toNat : Int) = n := by omega
    rw [numberValue, if_neg Bool.false_ne_true, if_pos rfl, if_neg hnonzero, hnegated]
  rw [scalar_int hn, ← hvalue]
  exact unsigned_toDigits true _ h

end Stops

/-! ### Names -/

/-- A word in letters. -/
def IsName (s : String) : Prop := s ≠ "" ∧ ∀ c ∈ s.toList, c.isAlpha

theorem ne_of_isAlpha {c d : Char} (hc : c.isAlpha) (hd : d.isAlpha = false) : c ≠ d := by
  rintro rfl
  rw [hd] at hc
  cases hc

theorem toNat_of_isAlpha {c : Char} (h : c.isAlpha) : 0x41 ≤ c.toNat ∧ c.toNat < 0x80 := by
  have hletter : (decide ('A'.val ≤ c.val ∧ c.val ≤ 'Z'.val)
      || (decide ('a'.val ≤ c.val) && decide (c.val ≤ 'z'.val))) = true := h
  simp only [Bool.or_eq_true, Bool.and_eq_true, decide_eq_true_eq, UInt32.le_iff_toNat_le] at hletter
  have hbounds : 'A'.val.toNat = 0x41 ∧ 'Z'.val.toNat = 0x5a ∧ 'a'.val.toNat = 0x61 ∧ 'z'.val.toNat = 0x7a := by decide
  have hval : c.val.toNat = c.toNat := rfl
  omega

theorem scalar_name {s : String} (hs : IsName s) : scalar (.text s) = '"' :: (s.toList ++ ['"']) := by
  have hescape : s.toList.flatMap escape = s.toList := by
    refine (List.flatMap_congr ?_).trans (List.flatMap_singleton' s.toList)
    intro c hc
    have hletter := hs.2 c hc
    have hlow := (toNat_of_isAlpha hletter).1
    rw [escape, if_neg (ne_of_isAlpha hletter (by decide)), if_neg (ne_of_isAlpha hletter (by decide)),
      if_neg (by omega)]
  show quoted s.toList = '"' :: (s.toList ++ ['"'])
  rw [quoted, hescape, List.cons_append]

theorem stringFrom_name {cs : List Char} (h : ∀ c ∈ cs, c.isAlpha) (rest : List Char) :
    stringFrom none (cs ++ '"' :: rest) = some (cs.map fun c => UInt8.ofNat c.toNat, rest) := by
  induction cs with
  | nil => rfl
  | cons c cs ih =>
      obtain ⟨hc, hcs⟩ := List.forall_mem_cons.mp h
      have hlow := (toNat_of_isAlpha hc).1
      have hquote : c ≠ '"' := ne_of_isAlpha hc (by decide)
      have hslash : c ≠ '\\' := ne_of_isAlpha hc (by decide)
      rw [List.cons_append, stringFrom.eq_5 none c _ hquote (fun _ _ _ _ _ heq => absurd heq hslash)
        (fun _ _ heq => absurd heq hslash), if_neg (by omega), ih hcs]
      rfl

/-- A name is read after its opening quote. -/
theorem string_name {s : String} (hs : IsName s) (rest : List Char) :
    (string (s.toList ++ '"' :: rest)).map (fun (bytes, rest) => (Datum.ofBytes bytes, rest)) = some (.text s, rest) := by
  have hascii : s.toUTF8.toList = s.toList.map fun c => UInt8.ofNat c.toNat := by
    have hbytes := toList_toUTF8_ofList fun c hc => (toNat_of_isAlpha (hs.2 c hc)).2
    rwa [String.ofList_toList] at hbytes
  simp only [string, stringFrom_name hs.2, Option.map_some, ← hascii, Datum.ofBytes_toUTF8]

theorem number_name {s : String} (hs : IsName s) (rest : List Char) : number (s.toList ++ rest) = none := by
  obtain ⟨c, cs, hcons⟩ : ∃ c cs, s.toList = c :: cs := by
    apply List.exists_cons_of_ne_nil
    intro hnil
    exact hs.1 (String.toList_eq_nil_iff.mp hnil)
  have hletter : c.isAlpha := hs.2 c (hcons ▸ List.mem_cons_self)
  have hnatural : natural (c :: (cs ++ rest)) = none := by
    have hzero : ∀ text, c :: (cs ++ rest) = '0' :: text → False := fun text heq =>
      ne_of_isAlpha hletter (by decide) (List.cons.inj heq).1
    have hdigit : ¬ isDigit c := by
      intro h
      have hupper := (Char.isDigit_iff_toNat.mp h).2
      have hlow := (toNat_of_isAlpha hletter).1
      exact absurd (Nat.le_trans hlow hupper) (by decide)
    rw [natural.eq_2 _ hzero, List.takeWhile_cons_of_neg hdigit]
    rfl
  rw [hcons, List.cons_append, number_of_ne (ne_of_isAlpha hletter (by decide)), unsigned, hnatural]

/-! ### Keys -/

/-- A number of 64 bits, which has a sign only if it is negative, or a name. -/
def PlainScalar : Datum → Prop
  | .nat n => n < 2 ^ 64
  | .int n => -2 ^ 63 ≤ n ∧ n < 0
  | .text s => IsName s
  | _ => False

theorem exists_keyText {k : Datum} (hk : PlainScalar k) :
    ∃ text, keyText k = '"' :: text ∧ ∀ rest, key (text ++ rest) = some (k, rest) := by
  cases k with
  | nat n =>
      refine ⟨scalar (.nat n) ++ ['"'], rfl, fun rest => ?_⟩
      have hread := number_scalar_nat n (show Stops ('"' :: rest) from .inr (.inr (.inr rfl)))
      rw [List.append_assoc, List.singleton_append]
      simp only [key, hread]
  | int n =>
      refine ⟨scalar (.int n) ++ ['"'], rfl, fun rest => ?_⟩
      have hread := number_scalar_int hk.2 (show Stops ('"' :: rest) from .inr (.inr (.inr rfl)))
      rw [List.append_assoc, List.singleton_append]
      simp only [key, hread]
  | text s =>
      refine ⟨s.toList ++ ['"'], scalar_name hk, fun rest => ?_⟩
      rw [List.append_assoc, List.singleton_append]
      simp only [key, number_name hk]
      exact string_name hk rest
  | null | bool | real | bytes | list | map | special => exact hk.elim

/-! ### Texts -/

/-- The characters are blanks. -/
def Blank (gap : List Char) : Prop := ∀ c ∈ gap, isSpace c

/-- A key and the text of its value, with blanks around them. -/
inductive Member (k : Datum) (spells : List Char → Prop) : List Char → Prop
  | intro {before between after last value : List Char} (hk : PlainScalar k) (hvalue : spells value)
      (hbefore : Blank before) (hbetween : Blank between) (hafter : Blank after) (hlast : Blank last) :
      Member k spells (before ++ (keyText k ++ (between ++ ':' :: (after ++ (value ++ last)))))

mutual

/-- The characters are a text of the value, from its first mark to its last. -/
def Spells : Datum → List Char → Prop
  | .map pairs, text => ∃ inside, SpellsPairs pairs inside ∧ text = '\x7b' :: (inside ++ ['\x7d'])
  | d, text => PlainScalar d ∧ text = scalar d

/-- The characters are members of a map, with commas between them. -/
def SpellsPairs : List (Datum × Datum) → List Char → Prop
  | [], inside => Blank inside
  | [(k, v)], inside => Member k (Spells v) inside
  | (k, v) :: p :: ps, inside =>
      ∃ member others, Member k (Spells v) member ∧ SpellsPairs (p :: ps) others ∧ inside = member ++ ',' :: others

end

/-- The characters are a whole text of the value. -/
def IsText (d : Datum) (text : List Char) : Prop :=
  ∃ before value after, Blank before ∧ Spells d value ∧ Blank after ∧ text = before ++ (value ++ after)

/-! ### Values -/

theorem skip_blank {gap : List Char} (h : Blank gap) (text : List Char) : skip (gap ++ text) = skip text :=
  List.dropWhile_append_of_pos h

theorem value_blank {gap : List Char} (h : Blank gap) (fuel : Nat) (text : List Char) :
    value fuel (gap ++ text) = value fuel text := by
  cases fuel with
  | zero => rfl
  | succ fuel => simp only [value, skip_blank h]

theorem value_digit {c : Char} (hc : isDigit c) (fuel : Nat) (text : List Char) :
    value (fuel + 1) (c :: text) = number (c :: text) := by
  obtain ⟨k, hk, rfl⟩ : ∃ k < 10, c = Nat.digitChar k := by
    obtain ⟨hlow, hhigh⟩ : 48 ≤ c.toNat ∧ c.toNat ≤ 57 := Char.isDigit_iff_toNat.mp hc
    refine ⟨c.toNat - 48, by omega, Char.toNat_inj.mp ?_⟩
    rw [Nat.toNat_digitChar_of_lt_ten (by omega)]
    omega
  interval_cases k <;> rfl

theorem value_scalar {d : Datum} (hd : PlainScalar d) (fuel : Nat) {rest : List Char} (h : Stops rest) :
    value (fuel + 1) (scalar d ++ rest) = some (d, rest) := by
  cases d with
  | nat n =>
      rw [← number_scalar_nat n h, scalar_nat]
      obtain ⟨c, cs, hcons⟩ := List.exists_cons_of_ne_nil (@Nat.toDigits_ne_nil n 10)
      have hdigit : isDigit c := isDigit_of_mem_toDigits (n := n) (hcons ▸ List.mem_cons_self)
      rw [hcons, List.cons_append, value_digit hdigit]
  | int n =>
      rw [← number_scalar_int hd.2 h, scalar_int hd.2]
      rfl
  | text s =>
      rw [scalar_name hd, List.cons_append, List.append_assoc]
      exact string_name hd rest
  | null | bool | real | bytes | list | map | special => exact hd.elim

theorem members_skip (read : List Char → Option (Datum × List Char)) (bound : Nat) (text : List Char) :
    members read bound (skip text) = members read bound text := by
  cases bound with
  | zero => rfl
  | succ bound => simp only [members, skip, List.dropWhile_idempotent]

theorem value_brace (fuel : Nat) {text quoted : List Char} (h : skip text = '"' :: quoted) :
    value (fuel + 1) ('\x7b' :: text) = (members (value fuel) fuel text).map fun (ms, r) => (.map ms, r) := by
  have hbrace : skip ('\x7b' :: text) = '\x7b' :: text := rfl
  rw [← members_skip, h]
  simp only [value, hbrace, h]
  rfl

/-- How a member is read, up to the mark after it. -/
theorem Member.reads {k v : Datum} {spells : List Char → Prop} {text : List Char} (h : Member k spells text)
    {read : List Char → Option (Datum × List Char)} (hblank : ∀ gap text, Blank gap → read (gap ++ text) = read text)
    (hread : ∀ value rest, spells value → value.length < text.length → Stops rest → read (value ++ rest) = some (v, rest))
    {mark : Char} (hmark : mark = ',' ∨ mark = '\x7d') (rest : List Char) :
    ∃ name colon valued after, skip (text ++ mark :: rest) = '"' :: name ∧ key name = some (k, colon) ∧
      skip colon = ':' :: valued ∧ read valued = some (v, after) ∧ skip after = mark :: rest := by
  obtain @⟨before, between, after, last, value, hk, hvalue, hbefore, hbetween, hafter, hlast⟩ := h
  obtain ⟨name, hname, hkey⟩ := exists_keyText hk
  have hstops : Stops (last ++ mark :: rest) := by
    cases last with
    | nil => rcases hmark with rfl | rfl <;> simp [Stops]
    | cons c last => exact .inl (hlast c List.mem_cons_self)
  have hshort : value.length <
      (before ++ (keyText k ++ (between ++ ':' :: (after ++ (value ++ last))))).length := by
    simp only [List.length_append, List.length_cons]
    omega
  refine ⟨_, _, _, _, ?_, hkey (between ++ ':' :: (after ++ (value ++ (last ++ mark :: rest)))), ?_,
    (hblank _ _ hafter).trans (hread value _ hvalue hshort hstops), ?_⟩
  · simp only [List.append_assoc, List.cons_append]
    rw [skip_blank hbefore, hname]
    rfl
  · rw [skip_blank hbetween]
    rfl
  · rw [skip_blank hlast]
    rcases hmark with rfl | rfl <;> rfl

theorem length_le_of_spellsPairs : ∀ {ps : List (Datum × Datum)} {inside : List Char}, SpellsPairs ps inside →
    ps.length ≤ inside.length
  | [], _, _ => Nat.zero_le _
  | [(_, _)], _, h => by
      obtain ⟨hk, hvalue, hbefore, hbetween, hafter, hlast⟩ := h
      simp only [List.length_append, List.length_cons, List.length_nil]
      omega
  | (_, _) :: p :: ps, _, ⟨member, others, _, hothers, heq⟩ => by
      have hlength := length_le_of_spellsPairs hothers
      simp only [heq, List.length_append, List.length_cons] at hlength ⊢
      omega

theorem exists_skip_of_spellsPairs {p : Datum × Datum} {ps : List (Datum × Datum)} {inside : List Char}
    (h : SpellsPairs (p :: ps) inside) (rest : List Char) : ∃ quoted, skip (inside ++ rest) = '"' :: quoted := by
  have hmember : ∃ member after, Member p.1 (Spells p.2) member ∧ inside = member ++ after := by
    cases ps with
    | nil => exact ⟨inside, [], h, (List.append_nil _).symm⟩
    | cons other ps =>
        obtain ⟨member, others, hmember, _, heq⟩ := h
        exact ⟨member, _, hmember, heq⟩
  obtain ⟨_, after, ⟨hk, _, hbefore, _, _, _⟩, rfl⟩ := hmember
  obtain ⟨name, hname, _⟩ := exists_keyText hk
  simp only [List.append_assoc]
  rw [skip_blank hbefore, hname]
  exact ⟨_, rfl⟩

mutual

/-- A value is read back from any of its texts, whatever it is followed by that ends a number. -/
theorem value_of_spells : ∀ (d : Datum) (fuel : Nat) (text rest : List Char), Spells d text → Stops rest →
    text.length < fuel → value fuel (text ++ rest) = some (d, rest)
  | .nat n, fuel + 1, _, rest, ⟨hd, rfl⟩, h, _ => value_scalar hd fuel h
  | .int n, fuel + 1, _, rest, ⟨hd, rfl⟩, h, _ => value_scalar hd fuel h
  | .text s, fuel + 1, _, rest, ⟨hd, rfl⟩, h, _ => value_scalar hd fuel h
  | .map [], fuel + 1, _, rest, ⟨inside, hinside, heq⟩, _, _ => by
      have hclose : skip (inside ++ '\x7d' :: rest) = '\x7d' :: rest := skip_blank hinside _
      have hbrace : ∀ text, skip ('\x7b' :: text) = '\x7b' :: text := fun _ => rfl
      simp only [heq, List.cons_append, List.append_assoc, List.nil_append, value, hbrace, hclose]
  | .map (p :: ps), fuel + 1, _, rest, ⟨inside, hinside, heq⟩, _, hfuel => by
      have hlength : inside.length < fuel := by
        simp only [heq, List.length_cons, List.length_append] at hfuel
        omega
      have hcount := length_le_of_spellsPairs hinside
      obtain ⟨quoted, hquoted⟩ := exists_skip_of_spellsPairs hinside ('\x7d' :: rest)
      rw [heq, List.cons_append, List.append_assoc, List.singleton_append, value_brace fuel hquoted,
        members_of_spells (p :: ps) fuel fuel inside rest (List.cons_ne_nil _ _) hinside hlength (by omega)]
      rfl

theorem members_of_spells : ∀ (ps : List (Datum × Datum)) (fuel bound : Nat) (inside rest : List Char), ps ≠ [] →
    SpellsPairs ps inside → inside.length < fuel → ps.length ≤ bound →
    members (value fuel) bound (inside ++ '\x7d' :: rest) = some (ps, rest)
  | [(k, v)], fuel, bound + 1, inside, rest, _, h, hfuel, _ => by
      obtain ⟨name, colon, valued, after, hname, hkey, hcolon, hvalue, hafter⟩ := Member.reads h
        (fun gap text hgap => value_blank hgap fuel text)
        (fun text rest hspells hlength hstops => value_of_spells v fuel text rest hspells hstops (by omega))
        (.inr rfl) rest
      simp only [members, hname, hkey, hcolon, hvalue, hafter]
  | (k, v) :: p :: ps, fuel, bound + 1, _, rest, _, ⟨member, others, hmember, hothers, heq⟩, hfuel, hbound => by
      simp only [heq, List.length_append, List.length_cons] at hfuel
      obtain ⟨name, colon, valued, after, hname, hkey, hcolon, hvalue, hafter⟩ := hmember.reads
        (fun gap text hgap => value_blank hgap fuel text)
        (fun text rest hspells hlength hstops => value_of_spells v fuel text rest hspells hstops (by omega))
        (.inl rfl) (others ++ '\x7d' :: rest)
      have hnext := members_of_spells (p :: ps) fuel bound others rest (List.cons_ne_nil _ _) hothers (by omega)
        (Nat.le_of_succ_le_succ hbound)
      rw [heq, List.append_assoc, List.cons_append]
      simp only [members, hname, hkey, hcolon, hvalue, hafter, hnext, Option.map_some]

end

/-! ### Whole texts -/

theorem ascii_scalar {d : Datum} (hd : PlainScalar d) : ∀ c ∈ scalar d, c.toNat < 0x80 := by
  have hdigits : ∀ n, ∀ c ∈ Nat.toDigits 10 n, c.toNat < 0x80 := by
    intro n c hc
    exact Nat.lt_of_le_of_lt (Char.isDigit_iff_toNat.mp (isDigit_of_mem_toDigits hc)).2 (by decide)
  cases d with
  | nat n =>
      rw [scalar_nat]
      exact hdigits n
  | int n =>
      rw [scalar_int hd.2, List.forall_mem_cons]
      exact ⟨by decide, hdigits _⟩
  | text s =>
      have hname : ∀ c ∈ s.toList, c.toNat < 0x80 := fun c hc => (toNat_of_isAlpha (hd.2 c hc)).2
      rw [scalar_name hd, List.forall_mem_cons, List.forall_mem_append]
      exact ⟨by decide, hname, List.forall_mem_singleton.mpr (by decide)⟩
  | null | bool | real | bytes | list | map | special => exact hd.elim

theorem ascii_keyText {k : Datum} (hk : PlainScalar k) : ∀ c ∈ keyText k, c.toNat < 0x80 := by
  have hscalar := ascii_scalar hk
  cases k with
  | text s => exact hscalar
  | nat | int =>
      rw [keyText, List.cons_append, List.forall_mem_cons, List.forall_mem_append]
      · exact ⟨by decide, hscalar, List.forall_mem_singleton.mpr (by decide)⟩
      · rintro s ⟨⟩
  | null | bool | real | bytes | list | map | special => exact hk.elim


theorem ascii_blank {gap : List Char} (h : Blank gap) : ∀ c ∈ gap, c.toNat < 0x80 := by
  intro c hc
  rcases eq_of_isSpace (h c hc) with rfl | rfl | rfl | rfl <;> decide

theorem Member.ascii {k : Datum} {spells : List Char → Prop} {text : List Char} (h : Member k spells text)
    (hspells : ∀ value, spells value → ∀ c ∈ value, c.toNat < 0x80) : ∀ c ∈ text, c.toNat < 0x80 := by
  obtain ⟨hk, hvalue, hbefore, hbetween, hafter, hlast⟩ := h
  simp only [List.forall_mem_append, List.forall_mem_cons]
  exact ⟨ascii_blank hbefore, ascii_keyText hk, ascii_blank hbetween, by decide, ascii_blank hafter,
    hspells _ hvalue, ascii_blank hlast⟩

mutual

theorem ascii_of_spells : ∀ (d : Datum) (text : List Char), Spells d text → ∀ c ∈ text, c.toNat < 0x80
  | .nat n, _, ⟨hd, rfl⟩ => ascii_scalar hd
  | .int n, _, ⟨hd, rfl⟩ => ascii_scalar hd
  | .text s, _, ⟨hd, rfl⟩ => ascii_scalar hd
  | .map pairs, _, ⟨inside, hinside, heq⟩ => by
      rw [heq, List.forall_mem_cons, List.forall_mem_append, List.forall_mem_singleton]
      exact ⟨by decide, ascii_of_spellsPairs pairs inside hinside, by decide⟩

theorem ascii_of_spellsPairs : ∀ (ps : List (Datum × Datum)) (inside : List Char), SpellsPairs ps inside →
    ∀ c ∈ inside, c.toNat < 0x80
  | [], _, h => ascii_blank h
  | [(_, v)], _, h => Member.ascii h fun text htext => ascii_of_spells v text htext
  | (_, v) :: p :: ps, _, ⟨member, others, hmember, hothers, heq⟩ => by
      have hfirst := hmember.ascii fun text htext => ascii_of_spells v text htext
      rw [heq, List.forall_mem_append, List.forall_mem_cons]
      exact ⟨hfirst, by decide, ascii_of_spellsPairs (p :: ps) others hothers⟩

end

/-- The value is read back from the bytes of any of its texts. -/
theorem parse_of_isText {d : Datum} {text : List Char} (h : IsText d text) :
    parse (String.ofList text).toUTF8.toList = some d := by
  obtain ⟨before, inside, after, hbefore, hspells, hafter, rfl⟩ := h
  have hascii : ∀ c ∈ before ++ (inside ++ after), c.toNat < 0x80 := by
    rw [List.forall_mem_append, List.forall_mem_append]
    exact ⟨ascii_blank hbefore, ascii_of_spells d inside hspells, ascii_blank hafter⟩
  have hstops : Stops after := by
    cases after with
    | nil => trivial
    | cons c after => exact .inl (hafter c List.mem_cons_self)
  have hread := value_of_spells d ((before ++ (inside ++ after)).length + 1) inside after hspells hstops
    (by simp only [List.length_append]; omega)
  have hend : skip after = [] := by
    rw [← List.append_nil after, skip_blank hafter]
    rfl
  simp only [parse, map_char_toUTF8 hascii, value_blank hbefore, hread, hend, List.isEmpty_nil, if_true]

/-! ### What is written -/

mutual

/-- The value is made of numbers, names and maps with such keys. -/
def Plain : Datum → Prop
  | .map pairs => PlainPairs pairs
  | d => PlainScalar d

def PlainPairs : List (Datum × Datum) → Prop
  | [] => True
  | (k, v) :: rest => PlainScalar k ∧ Plain v ∧ PlainPairs rest

end

theorem plain_of_plainScalar {d : Datum} (h : PlainScalar d) : Plain d := by
  cases d with
  | map pairs => exact h.elim
  | null | bool | nat | int | real | text | bytes | list | special => exact h

theorem blank_newline (level : Nat) : Blank (newline level) := by
  intro c hc
  rcases List.mem_cons.mp hc with rfl | hblank
  · rfl
  · rw [(List.mem_replicate.mp hblank).2]
    rfl

theorem member_render {k v : Datum} (hk : PlainScalar k) (level : Nat) (hv : Spells v (render level v))
    {last : List Char} (hlast : Blank last) :
    Member k (Spells v) (newline level ++ (keyText k ++ ':' :: ' ' :: (render level v ++ last))) :=
  .intro hk hv (blank_newline level) (List.forall_mem_nil _) (List.forall_mem_singleton.mpr rfl) hlast

mutual

/-- The text that is written is one of the value. -/
theorem spells_render : ∀ (d : Datum) (level : Nat), Plain d → Spells d (render level d)
  | .nat _, _, hd => ⟨hd, rfl⟩
  | .int _, _, hd => ⟨hd, rfl⟩
  | .text _, _, hd => ⟨hd, rfl⟩
  | .map [], _, _ => ⟨[], List.forall_mem_nil _, rfl⟩
  | .map ((k, v) :: ps), level, hd => by
      refine ⟨_, spellsPairs_render ((k, v) :: ps) (level + 1) level (List.cons_ne_nil _ _) hd, ?_⟩
      simp [render, renderPairs]

/-- The members that are written are those of the value, without the comma in front and with the line of the brace. -/
theorem spellsPairs_render : ∀ (ps : List (Datum × Datum)) (level outer : Nat), ps ≠ [] → PlainPairs ps →
    SpellsPairs ps ((renderPairs level ps).tail ++ newline outer)
  | [(k, v)], level, outer, _, hps => by
      have hmember := member_render hps.1 level (spells_render v level hps.2.1) (blank_newline outer)
      simpa [renderPairs, SpellsPairs] using hmember
  | (k, v) :: p :: ps, level, outer, _, hps => by
      refine ⟨_, _, member_render hps.1 level (spells_render v level hps.2.1) (List.forall_mem_nil _),
        spellsPairs_render (p :: ps) level outer (List.cons_ne_nil _ _) hps.2.2, ?_⟩
      simp [renderPairs]

end

theorem isText_text {d : Datum} (hd : Plain d) : IsText d (text d).toList := by
  refine ⟨[], render 0 d, [], List.forall_mem_nil _, spells_render d 0 hd, List.forall_mem_nil _, ?_⟩
  rw [text, String.toList_ofList, List.append_nil, List.nil_append]

end CodelCurve.Json
