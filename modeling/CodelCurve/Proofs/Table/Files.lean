import CodelCurve.Proofs.Table.Dialect

/-! Tables that are saved and loaded again. A search finds only formulas of words with exponents of a few bits, so every
table that is made by searches and by storing formulas can be written; it passes the check of a file, and comes back
as it was unless it is nested deeper than the format of the file bears. All of this is said of any library whose formats
keep what is relied on. -/

namespace CodelCurve

/-! ### Exponents of a search -/

namespace Search

def Storable (s : Search) : Prop := ∀ {n : Int} {e : Entry}, s.entry? n = some e → e.formula.Storable

end Search

namespace Table

/-! ### Tables that are made -/

/-- All numbers are positive and the values of their formulas. -/
def Consistent (t : Table) : Prop := ∀ e ∈ t.entries, 0 < e.1 ∧ e.2.value? = some e.1

instance (t : Table) : Decidable t.Consistent := inferInstanceAs (Decidable (∀ e ∈ t.entries, _))

theorem validated_of_consistent {t : Table} (ht : t.Consistent) : t.validated = .ok t := by
  have hnone : t.inconsistent? = none := by
    rw [inconsistent?, List.find?_eq_none]
    intro e he
    obtain ⟨hpositive, hvalue⟩ := ht e he
    simp [Formula.value, hvalue, Int.not_le.mpr hpositive]
  rw [validated, hnone]

/-- A table that is made of nothing by searches and by storing formulas. -/
inductive Reached : Table → Prop
  | empty : Reached .empty
  | insert {t t' : Table} {f : Formula} {before : Option Formula} (ht : Reached t) (hf : f.Storable)
      (h : t.insert f = .ok (before, t')) : Reached t'
  | optimized {t : Table} {plan : SearchPlan} (hword : plan.limit ≤ Word.greatest)
      (h : Table.optimized plan = .ok t) : Reached t

section

variable {lib : Library} {head : Nat} {t : Table}

/-- A table is read back from its packed form exactly if so many values may be nested. -/
theorem ofBytes_of_form (hfinds : lib.packed.Finds head) (hreads : lib.packed.ReadsPacked) (ht : t.Storable)
    {bytes : List UInt8} (hform : Packed.Form t.toDatum bytes) (z : List UInt8) :
    ofBytes lib (bytes ++ z) = if lib.packed.Bears head t
      then Except.ok t else Except.error (TableError.decode "these bytes are no table") := by
  rw [ofBytes, Format.read, hreads _ _ hform z, Option.bind_some, hfinds.table?_toDatum ht]
  split_ifs <;> rfl

theorem load_of_form (hfinds : lib.packed.Finds head) (hreads : lib.packed.ReadsPacked) (ht : t.Storable)
    (hc : t.Consistent) {bytes : List UInt8} (hform : Packed.Form t.toDatum bytes) {name : String}
    (hname : isJsonName name = false) :
    load lib name (ByteArray.mk bytes.toArray) = if lib.packed.Bears head t
      then Except.ok t else Except.error (TableError.decode "these bytes are no table") := by
  have hread := ofBytes_of_form hfinds hreads ht hform []
  rw [List.append_nil] at hread
  rw [load, ofFile, hname, if_neg Bool.false_ne_true, toList_byteArray, hread]
  split_ifs
  · exact validated_of_consistent hc
  · rfl

end

section

variable {lib : Library} {t : Table}

theorem load_of_isText (hfinds : lib.json.Finds 1) (hreads : lib.json.ReadsJson) (ht : t.Storable) (hc : t.Consistent)
    {name : String} (hname : isJsonName name = true) {text : List Char} (htext : Json.IsText t.toDatum text) :
    load lib name (ByteArray.mk (String.ofList text).toUTF8.toList.toArray) = if lib.json.Bears 1 t
      then Except.ok t else Except.error (TableError.json "this text is no table") := by
  rw [load, ofFile, if_pos hname, ofJson, toList_byteArray, Format.read, hreads _ _ htext, Option.bind_some,
    hfinds.table?_toDatum ht]
  split_ifs
  · exact validated_of_consistent hc
  · rfl

end

/-- In 127 nested values there is room for 62 levels of operators: the table is one of them, each operator is two, and a
number is one. -/
theorem depth_toDatum_le_127_iff (t : Table) : t.toDatum.depth ≤ 127 ↔ ∀ e ∈ t.entries, e.2.depth ≤ 62 := by
  rw [depth_toDatum_le_iff]
  simp only [Formula.depth_toDatum]
  constructor
  · rintro ⟨_, h⟩ e he
    have hdepth := h e he
    omega
  · intro h
    refine ⟨by decide, fun e he => ?_⟩
    have hdepth := h e he
    omega

/-- A table of positive numbers that are the values of their formulas is saved to a JSON file, and it is loaded from there
exactly if no formula has more than 62 levels of operators. That is how many there are when a format bears 127 nested
values. A deeper table is saved too, but it is refused when it is loaded. -/
theorem load_toFile_json_iff {lib : Library} (hfinds : lib.json.Finds 1) (hlimit : lib.json.limit = 127)
    (hwrites : lib.json.WritesJson) (hreads : lib.json.ReadsJson) {t : Table} (ht : t.Storable) (hc : t.Consistent)
    {name : String} (hname : isJsonName name = true) :
    ∃ contents, t.toFile lib name = .ok contents ∧
      (load lib name contents = .ok t ↔ ∀ e ∈ t.entries, e.2.depth ≤ 62) ∧
      (t.toDatum.depth ≤ 127 ↔ ∀ e ∈ t.entries, e.2.depth ≤ 62) ∧
      ((∃ e ∈ t.entries, 62 < e.2.depth) → ∃ detail, load lib name contents = .error (.json detail)) := by
  obtain ⟨text, hwrite, htext⟩ := hwrites _ (Json.plain_table ht)
  have hfile : t.toFile lib name = .ok (ByteArray.mk (String.ofList text).toUTF8.toList.toArray) := by
    rw [toFile, if_pos hname, toJson, hwrite]
    rfl
  have hload := load_of_isText hfinds hreads ht hc hname htext
  simp only [Format.bears_one_iff, hlimit, depth_toDatum_le_127_iff] at hload
  refine ⟨_, hfile, ?_, t.depth_toDatum_le_127_iff, ?_⟩
  · constructor
    · intro h
      by_contra hdeep
      rw [hload, if_neg hdeep] at h
      cases h
    · intro hdepth
      rw [hload, if_pos hdepth]
  · rintro ⟨e, he, hdeep⟩
    have hnot : ¬ ∀ e ∈ t.entries, e.2.depth ≤ 62 := fun h => absurd (h e he) (Nat.not_le.mpr hdeep)
    exact ⟨_, hload.trans (if_neg hnot)⟩

/-- A stored difference is loaded, and a chain of 63 powers is not. -/
theorem load_toFile_json_iff_chain :
    (∃ contents, toFile .standard "numbers.json" ⟨[(3, .binary .add (.leaf 5) (.leaf (-2)))], by decide⟩ = .ok contents ∧
      load .standard "numbers.json" contents = .ok ⟨[(3, .binary .add (.leaf 5) (.leaf (-2)))], by decide⟩) ∧
    ∃ contents detail,
      toFile .standard "numbers.json" ⟨[(1, Nat.iterate (.power · 1) 63 (.leaf 1))], by simp⟩ = .ok contents ∧
      load .standard "numbers.json" contents = .error (.json detail) := by
  have hname : isJsonName "numbers.json" = true := by decide
  have hfinds := Library.finds_json_standard
  have hlimit : Library.standard.json.limit = 127 := rfl
  have hwrites := Library.writesJson_standard
  have hreads := Library.readsJson_standard
  constructor
  · obtain ⟨contents, hfile, hload, _⟩ :=
      load_toFile_json_iff hfinds hlimit hwrites hreads (t := ⟨[(3, .binary .add (.leaf 5) (.leaf (-2)))], by decide⟩)
        (by decide) (by decide) hname
    exact ⟨contents, hfile, hload.mpr (by decide)⟩
  · obtain ⟨contents, hfile, _, _, hdeep⟩ :=
      load_toFile_json_iff hfinds hlimit hwrites hreads (t := ⟨[(1, Nat.iterate (.power · 1) 63 (.leaf 1))], by simp⟩)
        (by decide) (by decide) hname
    obtain ⟨detail, hload⟩ := hdeep (by decide)
    exact ⟨contents, detail, hfile, hload⟩

end Table

end CodelCurve
