import CodelCurve.Color
import CodelCurve.Machine.State
import Std.Data.TreeMap

/-! Maps from positions to shifts of colour that remember the order in which positions were first written.
Writing a position again replaces its shift and keeps its place. Main statements: what `get?` answers after an
insertion, how the list of positions grows, and which codels are listed. -/

namespace CodelCurve

namespace Position

/-- Positions are ordered by column and then by row. -/
instance : Ord Position := ⟨fun p q => (compare p.x q.x).then (compare p.y q.y)⟩

instance : Std.TransOrd Position :=
  inferInstanceAs (Std.TransCmp (compareLex (compareOn Position.x) (compareOn Position.y)))

instance : Std.LawfulEqOrd Position where
  eq_of_compare {a b} h := by
    have h' : compareLex (compareOn Position.x) (compareOn Position.y) a b = .eq := h
    simp only [compareLex_eq_eq, compareOn, Std.compare_eq_iff_eq] at h'
    cases a; cases b; simp_all

end Position

/-- Shifts by position, with the positions in the order in which they were first written. -/
structure CodelMap where
  /-- The positions, the most recently added one first. -/
  recent : List Position
  /-- The shift at each position. -/
  shifts : Std.TreeMap Position Shift
  nodup : recent.Nodup
  mem_recent : ∀ p, p ∈ recent ↔ p ∈ shifts

/-- A position and the shift there. -/
abbrev Codel := Position × Shift

namespace CodelMap

def empty : CodelMap := ⟨[], ∅, List.nodup_nil, by simp⟩

/-- Writes the shift of a position. -/
def insert (m : CodelMap) (p : Position) (s : Shift) : CodelMap :=
  if h : p ∈ m.shifts then
    ⟨m.recent, m.shifts.insert p s, m.nodup, fun q => by
      rw [m.mem_recent, Std.TreeMap.mem_insert, Std.compare_eq_iff_eq]
      exact ⟨Or.inr, fun hq => hq.elim (fun e => e ▸ h) id⟩⟩
  else
    ⟨p :: m.recent, m.shifts.insert p s, List.nodup_cons.2 ⟨fun hp => h ((m.mem_recent p).1 hp), m.nodup⟩,
      fun q => by
        rw [List.mem_cons, m.mem_recent, Std.TreeMap.mem_insert, Std.compare_eq_iff_eq, eq_comm]⟩

/-- The shift at a position. -/
def get? (m : CodelMap) (p : Position) : Option Shift := m.shifts[p]?

/-- The number of positions. -/
def size (m : CodelMap) : Nat := m.recent.length

def isEmpty (m : CodelMap) : Bool := m.recent.isEmpty

/-- A position with the shift written there. -/
def codel? (m : CodelMap) (p : Position) : Option Codel := (m.get? p).map fun s => (p, s)

/-- The codels in the order in which their positions were first written. -/
def toList (m : CodelMap) : List Codel := m.recent.reverse.filterMap m.codel?

/-- The codel whose position was added most recently. -/
def last? (m : CodelMap) : Option Codel := m.recent.head?.bind m.codel?

/-- The corners of the smallest rectangle that holds every position. -/
def extent? (m : CodelMap) : Option (Position × Position) :=
  match m.recent with
  | [] => none
  | first :: rest => some (rest.foldl
      (fun (low, high) p => (⟨min low.x p.x, min low.y p.y⟩, ⟨max high.x p.x, max high.y p.y⟩)) (first, first))

/-- Writes codels one after the other. -/
def ofList (codels : List Codel) : CodelMap := codels.foldl (fun m (p, s) => m.insert p s) empty

theorem get?_insert (m : CodelMap) (p q : Position) (s : Shift) :
    (m.insert p s).get? q = if p = q then some s else m.get? q := by
  unfold insert get?
  split <;> simp [Std.TreeMap.getElem?_insert]

theorem recent_insert (m : CodelMap) (p : Position) (s : Shift) :
    (m.insert p s).recent = if p ∈ m.recent then m.recent else p :: m.recent := by
  unfold insert
  by_cases h : p ∈ m.shifts <;> simp [h, m.mem_recent]

theorem isSome_get? (m : CodelMap) (p : Position) : (m.get? p).isSome = true ↔ p ∈ m.recent := by
  rw [m.mem_recent, get?, Std.TreeMap.mem_iff_isSome_getElem?]

theorem map_fst_filterMap (m : CodelMap) {ps : List Position} (hps : ∀ p ∈ ps, p ∈ m.recent) :
    (ps.filterMap m.codel?).map Prod.fst = ps := by
  induction ps with
  | nil => rfl
  | cons p rest ih =>
      obtain ⟨s, hs⟩ := Option.isSome_iff_exists.mp ((m.isSome_get? p).mpr (hps p List.mem_cons_self))
      have hcodel : m.codel? p = some (p, s) := by rw [codel?, hs, Option.map_some]
      rw [List.filterMap_cons_some hcodel, List.map_cons, ih fun q hq => hps q (List.mem_cons_of_mem _ hq)]

theorem map_fst_toList (m : CodelMap) : m.toList.map Prod.fst = m.recent.reverse :=
  m.map_fst_filterMap fun _ hp => List.mem_reverse.mp hp

theorem map_fst_last? (m : CodelMap) : m.last?.map Prod.fst = m.recent.head? := by
  unfold last?
  cases hrecent : m.recent with
  | nil => rfl
  | cons p rest =>
      have hp : p ∈ m.recent := by
        rw [hrecent]
        exact List.mem_cons_self
      obtain ⟨s, hs⟩ := Option.isSome_iff_exists.mp ((m.isSome_get? p).mpr hp)
      rw [List.head?_cons, Option.bind_some, codel?, hs]
      rfl

theorem mem_toList (m : CodelMap) {p : Position} {s : Shift} : (p, s) ∈ m.toList ↔ m.get? p = some s := by
  simp only [toList, codel?, List.mem_filterMap, List.mem_reverse, Option.map_eq_some_iff, Prod.mk.injEq]
  constructor
  · rintro ⟨q, _, s', hget, rfl, rfl⟩
    exact hget
  · intro hget
    exact ⟨p, (m.isSome_get? p).mp (by rw [hget]; rfl), s, hget, rfl, rfl⟩

end CodelMap

end CodelCurve
