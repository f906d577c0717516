import CodelCurve.Proofs.Data.Json
import CodelCurve.Proofs.Data.Packed
import CodelCurve.Proofs.Table.Entries
import CodelCurve.Table.Format

/-! Tables as values of a data format, and what a format is relied on for. If formulas are found in values by the names
of their kinds and parts, with a count of the values that are nested, then a formula of words with exponents of 32 bits
is read back from its value as long as the count allows for it, and refused otherwise; a table is read back if each of
its formulas is. A packed format writes the shortest form of a value and reads any, and a JSON format writes a text of a
value and reads any. -/

namespace CodelCurve

theorem Datum.int?_ofInt (n : Int) : (Datum.ofInt n).int? = some n := by
  unfold Datum.ofInt
  split_ifs with h
  · rfl
  · exact congrArg some (Int.toNat_of_nonneg (by omega))

/-- All numbers are words, and all exponents take 32 bits. -/
def Formula.Storable : Formula → Prop
  | leaf n => Word.Fits n
  | binary _ left right => left.Storable ∧ right.Storable
  | power base exponent => base.Storable ∧ exponent < 2 ^ 32

/-- Whether a formula is storable is decided by its parts. -/
def Formula.decideStorable : (f : Formula) → Decidable f.Storable
  | leaf n => inferInstanceAs (Decidable (Word.Fits n))
  | binary _ left right => @instDecidableAnd _ _ left.decideStorable right.decideStorable
  | power base exponent => @instDecidableAnd _ _ base.decideStorable (inferInstanceAs (Decidable (exponent < 2 ^ 32)))

instance (f : Formula) : Decidable f.Storable := f.decideStorable

/-- The words that stand in the values of formulas. -/
def Formula.vocabulary : List String :=
  ["Leaf", "Binary", "operator", "Add", "Subtract", "Multiply", "Divide", "left", "right", "Power", "base", "exponent"]

theorem Operator.title_mem (operator : Operator) : operator.title ∈ Formula.vocabulary := by
  cases operator <;> decide

/-! ### Formulas and tables in values -/

/-- How many nested values the value of a formula has, if the map of a kind counts as some of them. -/
def Formula.nesting (head : Nat) : Formula → Nat
  | leaf _ => head
  | binary _ left right => head + 1 + max (left.nesting head) (right.nesting head)
  | power base _ => head + 1 + base.nesting head

theorem Formula.nesting_eq (head : Nat) (f : Formula) : f.nesting head = (head + 1) * f.depth + head := by
  induction f with
  | leaf n => simp [nesting, depth]
  | binary operator left right ihleft ihright =>
      rw [nesting, ihleft, ihright, depth, Nat.mul_add, ← Nat.mul_max_mul_left, Nat.add_max_add_right]
      omega
  | power base exponent ih =>
      rw [nesting, ih, depth, Nat.mul_add]
      omega

namespace Format

/-- Formulas and tables are found in values by the names of kinds and parts. Of the values that may be nested a map of
entries or of parts takes one, and the map of a kind as many as are given. -/
structure Finds (f : Format) (head : Nat) : Prop where
  leaf : ∀ (room : Nat) (n : Int), Word.Fits n →
    f.formula? room (.map [(.text "Leaf", .ofInt n)]) = if head ≤ room then some (.leaf n) else none
  binary : ∀ (room : Nat) (operator : Operator) (left right : Datum),
    f.formula? room (.map [(.text "Binary", .map [
      (.text "operator", .text operator.title), (.text "left", left), (.text "right", right)])]) =
      if head < room then do
        return .binary operator (← f.formula? (room - (head + 1)) left) (← f.formula? (room - (head + 1)) right)
      else none
  power : ∀ (room : Nat) (base : Datum) (exponent : Nat), exponent < 2 ^ 32 →
    f.formula? room (.map [(.text "Power", .map [(.text "base", base), (.text "exponent", .nat exponent)])]) =
      if head < room then do return .power (← f.formula? (room - (head + 1)) base) exponent else none
  table : ∀ entries : List (Int × Datum), (∀ e ∈ entries, Word.Fits e.1) →
    f.table? (.map (entries.map fun e => (.ofInt e.1, e.2))) =
      if 0 < f.limit then do
        let found ← entries.mapM fun e => (f.formula? (f.limit - 1) e.2).map fun g => (e.1, g)
        return found.foldl (fun t e => t.put e.1 e.2) .empty
      else none

namespace Finds

variable {f : Format} {head : Nat} (h : f.Finds head)

include h

/-- A formula is read back if as many values may be nested as are. -/
theorem formula?_toDatum {g : Formula} (hg : g.Storable) (room : Nat) :
    f.formula? room g.toDatum = if g.nesting head ≤ room then some g else none := by
  induction g generalizing room with
  | leaf n => exact h.leaf room n hg
  | binary operator left right ihleft ihright =>
      have hfits : (Formula.binary operator left right).nesting head ≤ room ↔ head < room ∧
            left.nesting head ≤ room - (head + 1) ∧ right.nesting head ≤ room - (head + 1) := by
        rw [Formula.nesting]
        omega
      rw [Formula.toDatum, h.binary, ihleft hg.1, ihright hg.2]
      simp only [hfits]
      by_cases hroom : head < room
      · by_cases hleft : left.nesting head ≤ room - (head + 1) <;>
          by_cases hright : right.nesting head ≤ room - (head + 1) <;> simp [hroom, hleft, hright]
      · simp [hroom]
  | power base exponent ih =>
      have hfits : (Formula.power base exponent).nesting head ≤ room ↔ head < room ∧
            base.nesting head ≤ room - (head + 1) := by
        rw [Formula.nesting]
        omega
      rw [Formula.toDatum, h.power room _ exponent hg.2, ih hg.1]
      simp only [hfits]
      by_cases hroom : head < room
      · by_cases hbase : base.nesting head ≤ room - (head + 1) <;> simp [hroom, hbase]
      · simp [hroom]

/-- All entries are read back if each of their formulas is. -/
theorem mapM_toDatum {entries : List (Int × Formula)} (hentries : ∀ e ∈ entries, e.2.Storable) (room : Nat) :
    ((entries.map fun e => (e.1, e.2.toDatum)).mapM fun e => (f.formula? room e.2).map fun g => (e.1, g)) =
      if ∀ e ∈ entries, e.2.nesting head ≤ room then some entries else none := by
  induction entries with
  | nil => rfl
  | cons e rest ih =>
      obtain ⟨he, hrest⟩ := List.forall_mem_cons.mp hentries
      simp only [List.map_cons, List.mapM_cons, h.formula?_toDatum he, ih hrest, List.forall_mem_cons]
      by_cases hroom : e.2.nesting head ≤ room
      · by_cases hothers : ∀ e ∈ rest, e.2.nesting head ≤ room
        · rw [if_pos hroom, if_pos hothers, if_pos (And.intro hroom hothers)]
          rfl
        · rw [if_pos hroom, if_neg hothers, if_neg (mt And.right hothers)]
          rfl
      · rw [if_neg hroom, if_neg (mt And.left hroom)]
        rfl

end Finds

/-- As many values may be nested as are in the value of a table. -/
def Bears (f : Format) (head : Nat) (t : Table) : Prop := 0 < f.limit ∧ ∀ e ∈ t.entries, e.2.nesting head < f.limit

instance (f : Format) (head : Nat) (t : Table) : Decidable (f.Bears head t) := inferInstanceAs (Decidable (_ ∧ _))

end Format

namespace Table

/-- All numbers are words, and all formulas are storable. -/
def Storable (t : Table) : Prop := ∀ e ∈ t.entries, Word.Fits e.1 ∧ e.2.Storable

instance (t : Table) : Decidable t.Storable := inferInstanceAs (Decidable (∀ e ∈ t.entries, _))

end Table

/-- A table is read back from its value exactly if so many values may be nested. -/
theorem Format.Finds.table?_toDatum {f : Format} {head : Nat} (h : f.Finds head) {t : Table} (ht : t.Storable) :
    f.table? t.toDatum = if f.Bears head t then some t else none := by
  have hvalue : t.toDatum =
      .map ((t.entries.map fun e => (e.1, e.2.toDatum)).map fun e => (.ofInt e.1, e.2)) := by
    rw [List.map_map]
    rfl
  have hkeys : ∀ e ∈ t.entries.map fun e => (e.1, e.2.toDatum), Word.Fits e.1 :=
    List.forall_mem_map.mpr fun e he => (ht e he).1
  have hput : t.entries.foldl (fun t e => t.put e.1 e.2) .empty = t :=
    Table.eq_of_entries (Table.foldl_put .empty t.ascending)
  rw [hvalue, h.table _ hkeys, h.mapM_toDatum fun e he => (ht e he).2]
  by_cases hlimit : 0 < f.limit
  · have hbears : f.Bears head t ↔ ∀ e ∈ t.entries, e.2.nesting head ≤ f.limit - 1 := by
      simp only [Format.Bears, hlimit, true_and, Nat.le_sub_one_iff_lt hlimit]
    simp only [hlimit, hbears, if_true]
    by_cases hentries : ∀ e ∈ t.entries, e.2.nesting head ≤ f.limit - 1
    · rw [if_pos hentries, if_pos hentries]
      exact congrArg some hput
    · rw [if_neg hentries, if_neg hentries]
      rfl
  · rw [if_neg hlimit, if_neg fun hbears => hlimit hbears.1]

/-! ### Packed formats -/

namespace Format

/-- A value is read from any of its packed forms, whatever follows it. -/
def ReadsPacked (f : Format) : Prop := ∀ d bytes, Packed.Form d bytes → ∀ z, f.parse (bytes ++ z) = some d

end Format

namespace Packed

theorem exists_form_ofInt {n : Int} (h : Word.Fits n) : ∃ bytes, Form (.ofInt n) bytes := by
  unfold Word.Fits Word.least Word.greatest at h
  unfold Datum.ofInt
  split_ifs with hsign
  · exact ⟨_, hsign, .inr ⟨(0xd3, 8), by simp, by simp; omega, rfl⟩⟩
  · exact ⟨_, .inr ⟨(0xcf, 8), by simp [Head.natural], by simp; omega, rfl⟩⟩

theorem exists_form_text {s : String} (h : s.toUTF8.toList.length < 2 ^ 32) : ∃ bytes, Form (.text s) bytes :=
  ⟨_, _, .inr ⟨(0xdb, 4), by simp [Head.text], h, rfl⟩, rfl⟩

theorem exists_formPairs {ps : List (Datum × Datum)}
    (h : ∀ p ∈ ps, (∃ bytes, Form p.1 bytes) ∧ ∃ bytes, Form p.2 bytes) : ∃ bytes, FormPairs ps bytes := by
  induction ps with
  | nil => exact ⟨[], rfl⟩
  | cons p ps ih =>
      obtain ⟨⟨⟨key, hkey⟩, value, hvalue⟩, hothers⟩ := List.forall_mem_cons.mp h
      obtain ⟨back, hback⟩ := ih hothers
      exact ⟨_, key, value, back, hkey, hvalue, hback, rfl⟩

/-- A map has a form exactly if its values have and 32 bits are enough to count them. -/
theorem exists_form_map {ps : List (Datum × Datum)}
    (h : ∀ p ∈ ps, (∃ bytes, Form p.1 bytes) ∧ ∃ bytes, Form p.2 bytes) :
    (∃ bytes, Form (.map ps) bytes) ↔ ps.length < 2 ^ 32 := by
  constructor
  · rintro ⟨bytes, head, body, hhead, _⟩
    rcases hhead with ⟨hshort, _⟩ | ⟨p, hp, hwide, _⟩
    · exact Nat.lt_trans hshort (by decide)
    · simp only [Head.map, List.mem_cons, List.not_mem_nil, or_false] at hp
      rcases hp with rfl | rfl
      · exact Nat.lt_trans hwide (by decide)
      · exact hwide
  · intro hlength
    obtain ⟨body, hbody⟩ := exists_formPairs h
    exact ⟨_, _, body, .inr ⟨(0xdf, 4), by simp [Head.map], hlength, rfl⟩, hbody, rfl⟩

theorem exists_form_toDatum {f : Formula} (hf : f.Storable) : ∃ bytes, Form f.toDatum bytes := by
  have hword : ∀ s ∈ Formula.vocabulary, ∃ bytes, Form (.text s) bytes := by
    intro s hs
    have hsize : ∀ s ∈ Formula.vocabulary, s.utf8ByteSize < 0x100000000 := by decide
    apply exists_form_text
    rw [toList_byteArray]
    exact hsize s hs
  induction f with
  | leaf n => simp [Formula.toDatum, exists_form_map, hword "Leaf" (by decide), exists_form_ofInt hf]
  | binary operator left right ihleft ihright =>
      simp [Formula.toDatum, exists_form_map, hword "Binary" (by decide), hword "operator" (by decide),
        hword "left" (by decide), hword "right" (by decide), hword operator.title operator.title_mem, ihleft hf.1,
        ihright hf.2]
  | power base exponent ih =>
      have hexponent : ∃ bytes, Form (.nat exponent) bytes :=
        ⟨_, .inr ⟨(0xcf, 8), by simp [Head.natural], Nat.lt_trans hf.2 (by decide), rfl⟩⟩
      simp [Formula.toDatum, exists_form_map, hword "Power" (by decide), hword "base" (by decide),
        hword "exponent" (by decide), ih hf.1, hexponent]

/-- A table has a packed form exactly if 32 bits are enough to count its entries. -/
theorem exists_form_table_iff {t : Table} (ht : t.Storable) : (∃ bytes, Form t.toDatum bytes) ↔ t.size < 2 ^ 32 := by
  rw [Table.toDatum, exists_form_map, List.length_map]
  · rfl
  · intro p hp
    obtain ⟨e, he, rfl⟩ := List.mem_map.mp hp
    exact ⟨exists_form_ofInt (ht e he).1, exists_form_toDatum (ht e he).2⟩

end Packed

/-! ### JSON formats -/

namespace Format

/-- A value is written to a JSON text of it. -/
def WritesJson (f : Format) : Prop :=
  ∀ d, Json.Plain d → ∃ text, f.write d = .ok (String.ofList text).toUTF8.toList ∧ Json.IsText d text

/-- A value is read from any of its JSON texts. -/
def ReadsJson (f : Format) : Prop :=
  ∀ d text, Json.IsText d text → f.parse (String.ofList text).toUTF8.toList = some d

end Format

namespace Json

theorem plainScalar_ofInt {n : Int} (h : Word.Fits n) : PlainScalar (.ofInt n) := by
  unfold Word.Fits Word.least Word.greatest at h
  unfold Datum.ofInt
  split_ifs with hsign
  · exact ⟨by omega, hsign⟩
  · show n.toNat < 2 ^ 64
    omega

theorem plain_toDatum {f : Formula} (hf : f.Storable) : Plain f.toDatum := by
  have hword : ∀ s ∈ Formula.vocabulary, IsName s := by
    simp [IsName, Formula.vocabulary]
  induction f with
  | leaf n => exact ⟨hword "Leaf" (by decide), plain_of_plainScalar (plainScalar_ofInt hf), trivial⟩
  | binary operator left right ihleft ihright =>
      exact ⟨hword "Binary" (by decide), ⟨hword "operator" (by decide), hword _ operator.title_mem,
        hword "left" (by decide), ihleft hf.1, hword "right" (by decide), ihright hf.2, trivial⟩, trivial⟩
  | power base exponent ih =>
      have hexponent : PlainScalar (.nat exponent) := Nat.lt_trans hf.2 (by decide)
      exact ⟨hword "Power" (by decide), ⟨hword "base" (by decide), ih hf.1, hword "exponent" (by decide), hexponent,
        trivial⟩, trivial⟩

theorem plain_table {t : Table} (ht : t.Storable) : Plain t.toDatum := by
  have hpairs : ∀ entries : List (Int × Formula), (∀ e ∈ entries, Word.Fits e.1 ∧ e.2.Storable) →
      PlainPairs (entries.map fun e => (Datum.ofInt e.1, e.2.toDatum)) := by
    intro entries hentries
    induction entries with
    | nil => trivial
    | cons e entries ih =>
        obtain ⟨he, hrest⟩ := List.forall_mem_cons.mp hentries
        exact ⟨plainScalar_ofInt he.1, plain_toDatum he.2, ih hrest⟩
  exact hpairs t.entries ht

end Json

/-! ### Nested values -/

theorem Datum.depth_ofInt (n : Int) : (Datum.ofInt n).depth = 0 := by
  unfold Datum.ofInt
  split_ifs <;> simp [Datum.depth]

/-- Each operator opens two maps, its kind and its parts, and each number one. -/
theorem Formula.depth_toDatum (f : Formula) : f.toDatum.depth = 2 * f.depth + 1 := by
  induction f with
  | leaf n => simp [toDatum, Datum.depth, Datum.depthOfPairs, Datum.depth_ofInt, depth]
  | binary operator left right ihleft ihright =>
      simp only [toDatum, Datum.depth, Datum.depthOfPairs, ihleft, ihright, depth]
      omega
  | power base exponent ih =>
      simp only [toDatum, Datum.depth, Datum.depthOfPairs, ih, depth]
      omega

theorem Table.depth_toDatum_le_iff (t : Table) (n : Nat) :
    t.toDatum.depth ≤ n ↔ 0 < n ∧ ∀ e ∈ t.entries, e.2.toDatum.depth < n := by
  have hpairs : ∀ (m : Nat) (entries : List (Int × Formula)),
      Datum.depthOfPairs (entries.map fun e => (Datum.ofInt e.1, e.2.toDatum)) ≤ m ↔
        ∀ e ∈ entries, e.2.toDatum.depth ≤ m := by
    intro m entries
    induction entries with
    | nil => simp [Datum.depthOfPairs]
    | cons e entries ih =>
        rw [List.map_cons, Datum.depthOfPairs, Datum.depth_ofInt, List.forall_mem_cons, ← ih]
        omega
  cases n with
  | zero => simp [toDatum, Datum.depth]
  | succ m =>
      rw [toDatum, Datum.depth, Nat.succ_le_succ_iff, hpairs m]
      simp [Nat.lt_succ_iff]

/-- If the map of a kind counts as one, what is counted is how deep the value of a table is nested. -/
theorem Format.bears_one_iff (f : Format) (t : Table) : f.Bears 1 t ↔ t.toDatum.depth ≤ f.limit := by
  simp only [t.depth_toDatum_le_iff, Bears, Formula.nesting_eq, Formula.depth_toDatum]

end CodelCurve
