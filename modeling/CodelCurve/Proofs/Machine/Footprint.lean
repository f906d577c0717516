import CodelCurve.Proofs.Machine.Levels
import CodelCurve.Proofs.Machine.Size
import Mathlib.Data.List.Basic

/-! Footprints. The primitives of a composite are those of its parts in a row, and so are those of its units. Its size is
given by a formula of its own; for an instruction from the checked constructors it is the number of codels that its
primitives take up, and the sum of the sizes of its units. -/

namespace CodelCurve

/-- The formulas that the checked constructors give. -/
inductive Formula.Built : Formula → Prop where
  | number {n : Int} {f : Formula} (h : Formula.ofNumber n = .ok f) : Built f
  | binary (operator : Operator) {left right : Formula} (hleft : Built left) (hright : Built right) :
    Built (.binary operator left right)
  | power {base : Formula} {exponent : Nat} {f : Formula} (hbase : Built base)
    (h : Formula.ofPower base exponent = .ok f) : Built f

theorem Formula.Built.proper {f : Formula} (h : f.Built) : f.Proper := by
  induction h with
  | @number n f h =>
      rw [ofNumber] at h
      split at h
      · cases h
      · cases h
        show 1 ≤ n
        omega
  | binary operator _ _ ihleft ihright => exact ⟨ihleft, ihright⟩
  | @power base exponent f _ h ih =>
      rw [ofPower] at h
      split at h
      · cases h
      · cases h
        exact ⟨ih, by omega⟩

namespace Instruction

/-- The instructions that the checked constructors give. -/
inductive Built : Instruction → Prop where
  | op (o : Op) : Built (.op o)
  | resize {n : Int} {i : Instruction} (h : ofResize n = .ok i) : Built i
  | uTurn (turn : Turn) : Built (.uTurn turn)
  | noOp {n : Int} {i : Instruction} (h : ofNoOp n = .ok i) : Built i
  | number {f : Formula} (h : f.Built) : Built (.number f)

theorem Built.proper {i : Instruction} (h : i.Built) : i.Proper := by
  cases h with
  | op | uTurn => trivial
  | @resize n i h =>
      rw [ofResize] at h
      split at h <;> cases h
      trivial
  | @noOp n i h =>
      rw [ofNoOp] at h
      split at h <;> cases h
      trivial
  | number h => exact h.proper

theorem flatMap_expand_map_op (os : List Op) : (os.map op).flatMap expand = os := by
  simp [List.flatMap_map, expand]

theorem flatMap_expand_replicate (n : Nat) (o : Op) :
    (List.replicate n (op o)).flatMap expand = List.replicate n o := by
  rw [← List.map_replicate, flatMap_expand_map_op]

/-- A block of a size below two is a single codel and takes no resize. -/
theorem flatMap_expand_blockOf (n : Int) : (blockOf n).flatMap expand = List.replicate (n.toNat - 1) .extend := by
  rw [blockOf, Length.ofInt?]
  by_cases htwo : 2 ≤ n
  · rw [dif_pos htwo]
    exact List.append_nil _
  · have hsingle : n.toNat - 1 = 0 := by omega
    rw [dif_neg htwo, hsingle]
    rfl

theorem expand_eq_flatMap_parts {i : Instruction} (h : i.isOp = false) : i.expand = i.parts.flatMap expand := by
  cases i with
  | op o => cases h
  | resize length => exact (flatMap_expand_replicate _ _).symm
  | uTurn turn => cases turn <;> rfl
  | noOp length =>
      simp only [expand, parts, List.cons_append, List.flatMap_cons, List.flatMap_append, flatMap_expand_map_op]
      split <;> rfl
  | number f =>
      cases f with
      | leaf n =>
          rw [parts, List.flatMap_append, flatMap_expand_blockOf]
          rfl
      | binary operator left right => simp [expand, Formula.expand, parts]
      | power base exponent =>
          rw [parts, List.cons_append, List.flatMap_cons, List.flatMap_append, flatMap_expand_replicate,
            flatMap_expand_replicate, ← List.append_assoc]
          rfl

/-- What holds of primitives and resizes, and of a longer composite when it holds of its parts, holds of every
instruction. -/
theorem units_induction {P : Instruction → Prop} (hop : ∀ o, P (op o)) (hresize : ∀ length, P (resize length))
    (hparts : ∀ i : Instruction, i.units = i.parts.flatMap units → i.expand = i.parts.flatMap expand →
      (∀ j ∈ i.parts, P j) → P i) (i : Instruction) : P i := by
  induction i using parts_induction with
  | hop o => exact hop o
  | hparts i hi ih =>
      cases i with
      | op o => exact hop o
      | resize length => exact hresize length
      | uTurn | noOp | number => exact hparts _ (units_eq_flatMap_parts hi rfl) (expand_eq_flatMap_parts hi) ih

theorem flatMap_expand_units (i : Instruction) : i.units.flatMap expand = i.expand := by
  induction i using units_induction with
  | hop o => rfl
  | hresize length => exact List.append_nil _
  | hparts i hunits hexpand ih =>
      rw [hunits, List.flatMap_assoc, hexpand]
      exact List.flatMap_congr ih

theorem isOp_or_isResize_of_mem_units {i u : Instruction} (hu : u ∈ i.units) : u.isOp = true ∨ u.isResize = true := by
  induction i using units_induction with
  | hop o =>
      rw [List.mem_singleton.mp hu]
      exact .inl rfl
  | hresize length =>
      rw [List.mem_singleton.mp hu]
      exact .inr rfl
  | hparts i hunits _ ih =>
      rw [hunits, List.mem_flatMap] at hu
      obtain ⟨j, hj, hu⟩ := hu
      exact ih j hj hu

theorem proper_of_mem_units {i u : Instruction} (hu : u ∈ i.units) : u.Proper := by
  cases u with
  | number f => simpa [isOp, isResize] using isOp_or_isResize_of_mem_units hu
  | op | resize | uTurn | noOp => trivial

theorem sizeOf_units {i : Instruction} (h : i.Proper) : Program.sizeOf i.units = i.size := by
  rw [← Program.length_flatMap_expand fun _ => proper_of_mem_units, flatMap_expand_units, length_expand h]

/-- The size of an instruction is the number of its primitives and the sum of the sizes of its units. These are
primitives and resizes, and they have the same primitives as the instruction. So the size of a program is the number of
its primitives too. -/
theorem size_eq_footprint :
    (∀ i : Instruction, i.Built → i.size = i.expand.length ∧ i.size = Program.sizeOf i.units ∧
      i.units.flatMap expand = i.expand ∧ ∀ u ∈ i.units, u.isOp = true ∨ u.isResize = true) ∧
    ∀ p : Program, (∀ i ∈ p.body, i.Built) → p.size = p.expanded.length := by
  refine ⟨fun i hi => ⟨?_, ?_, ?_, ?_⟩, fun p hp => ?_⟩
  · exact (length_expand hi.proper).symm
  · exact (sizeOf_units hi.proper).symm
  · exact flatMap_expand_units i
  · exact fun u => isOp_or_isResize_of_mem_units
  · exact (Program.length_expanded fun i hi => (hp i hi).proper).symm

/-- A program with a nested number, an odd filler, a resize and both U-turns. -/
theorem size_eq_footprint_nested :
    let p : Program := ⟨[.number (.binary .divide (.power (.binary .add (.leaf 3) (.leaf 1)) 3) (.leaf 5)),
      .noOp .three, .uTurn .anticlockwise, .resize .two, .op .push, .uTurn .clockwise]⟩
    (∀ i ∈ p.body, i.Built) ∧ p.size = 35 ∧ p.size = p.expanded.length ∧
    ∀ i ∈ p.body, i.size = Program.sizeOf i.units := by
  intro p
  have hsum : Formula.Built (.binary .add (.leaf 3) (.leaf 1)) :=
    .binary .add (.number (n := 3) rfl) (.number (n := 1) rfl)
  have hnumber : Formula.Built (.binary .divide (.power (.binary .add (.leaf 3) (.leaf 1)) 3) (.leaf 5)) :=
    .binary .divide (.power hsum (show Formula.ofPower _ 3 = _ from rfl)) (.number (n := 5) rfl)
  have hbuilt : ∀ i ∈ p.body, i.Built := by
    simp only [p, List.forall_mem_cons]
    exact ⟨.number hnumber, .noOp (n := 3) rfl, .uTurn _, .resize (n := 2) rfl, .op _, .uTurn _, List.forall_mem_nil _⟩
  exact ⟨hbuilt, rfl, size_eq_footprint.2 p hbuilt, fun i hi => (size_eq_footprint.1 i (hbuilt i hi)).2.1⟩

end Instruction

end CodelCurve
