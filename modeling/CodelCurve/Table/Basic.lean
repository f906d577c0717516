import CodelCurve.Formula.Search
import CodelCurve.Machine.Instruction

/-! Tables from numbers to the formulas that produce them. A number without an entry is produced by a single
leaf. Entries are kept in ascending order of their numbers, so that equal tables have equal entries. -/

namespace CodelCurve

/-- Formulas by number, in ascending order. -/
structure Table where
  entries : List (Int × Formula)
  ascending : entries.Pairwise fun a b => a.1 < b.1
  deriving DecidableEq

/-- Why a table cannot be read or written. -/
inductive TableError where
  | io (detail : String)
  /-- The table cannot be packed. -/
  | encode (detail : String)
  /-- The bytes are no table. -/
  | decode (detail : String)
  /-- The text is no table. -/
  | json (detail : String)
  /-- The formula of an entry has another value. -/
  | inconsistent (key value : Int)
  deriving DecidableEq, Repr

namespace TableError

def message : TableError → String
  | io detail => s!"IO error: {detail}"
  | encode detail => s!"Failed to encode numbers: {detail}"
  | decode detail => s!"Failed to decode numbers: {detail}"
  | json detail => s!"Invalid JSON numbers: {detail}"
  | inconsistent key value => s!"Inconsistent entry {key}: tree evaluates to {value}"

end TableError

namespace Table

def empty : Table := ⟨[], .nil⟩

/-- Puts an entry into its place among entries in ascending order, over one of the same number. -/
def place (key : Int) (f : Formula) : List (Int × Formula) → List (Int × Formula)
  | [] => [(key, f)]
  | (k, g) :: rest =>
    if key < k then (key, f) :: (k, g) :: rest
    else if key = k then (key, f) :: rest
    else (k, g) :: place key f rest

theorem mem_place {key : Int} {f : Formula} {entries : List (Int × Formula)} {e : Int × Formula}
    (h : e ∈ place key f entries) : e = (key, f) ∨ e ∈ entries := by
  induction entries with
  | nil => simpa [place] using h
  | cons head rest ih =>
    obtain ⟨k, g⟩ := head
    rw [place] at h
    split at h
    · simpa using h
    · split at h
      · rcases List.mem_cons.1 h with h | h
        · exact .inl h
        · exact .inr (List.mem_cons_of_mem _ h)
      · rcases List.mem_cons.1 h with h | h
        · exact .inr (h ▸ List.mem_cons_self)
        · exact (ih h).imp id (List.mem_cons_of_mem _)

theorem place_ascending (key : Int) (f : Formula) {entries : List (Int × Formula)}
    (h : entries.Pairwise fun a b => a.1 < b.1) : (place key f entries).Pairwise fun a b => a.1 < b.1 := by
  induction entries with
  | nil => simp [place]
  | cons head rest ih =>
    obtain ⟨k, g⟩ := head
    have ⟨hk, hrest⟩ := List.pairwise_cons.1 h
    rw [place]
    split
    next hlt =>
      refine List.pairwise_cons.2 ⟨fun e he => ?_, h⟩
      rcases List.mem_cons.1 he with rfl | he
      · exact hlt
      · exact Int.lt_trans hlt (hk e he)
    next hlt =>
      split
      next heq => exact List.pairwise_cons.2 ⟨fun e he => heq ▸ hk e he, hrest⟩
      next hne =>
        refine List.pairwise_cons.2 ⟨fun e he => ?_, ih hrest⟩
        rcases mem_place he with rfl | he
        · show k < key
          omega
        · exact hk e he

/-- The table with an entry put in. -/
def put (t : Table) (key : Int) (f : Formula) : Table := ⟨place key f t.entries, place_ascending key f t.ascending⟩

/-- The entry of a number. -/
def find? (t : Table) (n : Int) : Option Formula := (t.entries.find? fun e => e.1 = n).map (·.2)

/-- The number of entries. -/
def size (t : Table) : Nat := t.entries.length

def isEmpty (t : Table) : Bool := t.entries.isEmpty

/-- Stores a formula under the number it evaluates to, which has to be positive. The first part of the answer is
the formula that was there. -/
def insert (t : Table) (f : Formula) : Except BuildError (Option Formula × Table) :=
  match f.value? with
  | none => .error (.formula f)
  | some n => if n ≤ 0 then .error (.number n) else .ok (t.find? n, t.put n f)

/-- The formula to produce a number by. -/
def get (t : Table) (n : Int) : Except BuildError Formula :=
  match t.find? n with
  | some f => .ok f
  | none => Formula.ofNumber n

/-- The instruction that leaves a number on the stack. -/
def number (t : Table) (n : Int) : Except BuildError Instruction := do return .number (← t.get n)

/-- Entries put in from the last to the first. -/
def ofEntries (entries : List (Int × Formula)) : Table :=
  entries.foldr (fun (key, f) t => t.put key f) empty

/-- The table of the formulas that a search has found. -/
def ofSearch (s : Search) : Table :=
  ofEntries (s.entries.toList.zipIdx.map fun (e, k) => ((k : Int) + 1, e.formula))

/-- The table that a plan of search comes to. -/
def optimized (plan : SearchPlan) : Except BuildError Table := do
  let s ← Search.ofLimit plan.limit
  return ofSearch (s.run plan.schedule)

/-- The first entry, in ascending order, whose number is not positive or not the value of its formula. -/
def inconsistent? (t : Table) : Option (Int × Formula) :=
  t.entries.find? fun (key, f) => key ≤ 0 || f.value != key

/-- The table itself, when all entries are positive and evaluate to their numbers. -/
def validated (t : Table) : Except TableError Table :=
  match t.inconsistent? with
  | some (key, f) => .error (.inconsistent key f.value)
  | none => .ok t

end Table

end CodelCurve
