import CodelCurve.Machine.Program
import CodelCurve.Proofs.Machine.Pass

/-! Sizes. The size of a list of instructions is the sum of theirs, and the size of an instruction is the number of
the primitives it stands for, where formulas are proper. -/

namespace CodelCurve

theorem Formula.length_expand {f : Formula} (h : f.Proper) : (f.expand.length : Int) = f.cost := by
  induction f with
  | leaf n =>
      have hn : 1 ≤ n := h
      rw [expand, cost, List.length_append, List.length_replicate, List.length_singleton]
      omega
  | binary operator left right ihleft ihright =>
      have hleft := ihleft h.1
      have hright := ihright h.2
      rw [expand, cost, List.length_append, List.length_append, List.length_singleton]
      omega
  | power base exponent ih =>
      have hbase := ih h.1
      have hexponent := h.2
      rw [expand, cost, List.length_append, List.length_append, List.length_replicate, List.length_replicate]
      omega

namespace Instruction

/-- A number has a proper formula. -/
def Proper : Instruction → Prop
  | number f => f.Proper
  | _ => True

theorem length_doublings (n : Nat) : (doublings n).length = 2 * n := by
  induction n with
  | zero => rfl
  | succ n ih =>
      rw [doublings, List.length_cons, List.length_cons, ih]
      omega

theorem length_expand {i : Instruction} (h : i.Proper) : (i.expand.length : Int) = i.size := by
  cases i with
  | op o => rfl
  | resize length =>
      have htwo := length.two_le
      rw [expand, size, List.length_replicate]
      omega
  | uTurn turn => cases turn <;> rfl
  | noOp length =>
      have htwo := length.two_le
      rw [expand, size, List.length_append, List.length_append, List.length_cons, length_doublings,
        List.length_singleton]
      by_cases hodd : length.codels % 2 = 1
      · rw [if_pos hodd, List.length_singleton]
        omega
      · rw [if_neg hodd, List.length_nil]
        omega
  | number f => exact Formula.length_expand h

end Instruction

namespace Program

theorem foldl_size (is : List Instruction) (total : Int) :
    is.foldl (fun total i => total + i.size) total = total + sizeOf is := by
  induction is generalizing total with
  | nil => exact (Int.add_zero total).symm
  | cons i rest ih =>
      have hcons : sizeOf (i :: rest) = rest.foldl (fun total i => total + i.size) (0 + i.size) := rfl
      rw [List.foldl_cons, hcons, ih, ih, Int.zero_add, Int.add_assoc]

theorem sizeOf_append (is js : List Instruction) : sizeOf (is ++ js) = sizeOf is + sizeOf js := by
  rw [sizeOf, List.foldl_append, foldl_size js]
  rfl

theorem sizeOf_singleton (i : Instruction) : sizeOf [i] = i.size := Int.zero_add _

theorem sizeOf_cons (i : Instruction) (is : List Instruction) : sizeOf (i :: is) = i.size + sizeOf is := by
  rw [← List.singleton_append, sizeOf_append, sizeOf_singleton]

theorem sizeOf_nonneg {is : List Instruction} (h : ∀ i ∈ is, 0 ≤ i.size) : 0 ≤ sizeOf is := by
  induction is with
  | nil => exact Int.le_refl 0
  | cons i rest ih =>
      have hfirst := h i List.mem_cons_self
      have hrest := ih fun j hj => h j (List.mem_cons_of_mem _ hj)
      rw [sizeOf_cons]
      omega

theorem length_flatMap_expand {is : List Instruction} (h : ∀ i ∈ is, i.Proper) :
    ((is.flatMap Instruction.expand).length : Int) = sizeOf is := by
  induction is with
  | nil => rfl
  | cons i rest ih =>
      have hfirst := Instruction.length_expand (h i List.mem_cons_self)
      have hrest := ih fun j hj => h j (List.mem_cons_of_mem _ hj)
      rw [List.flatMap_cons, List.length_append, sizeOf_cons]
      omega

/-- The size of a program is the number of its primitives, the first codel among them. -/
theorem length_expanded {p : Program} (h : ∀ i ∈ p.body, i.Proper) : (p.expanded.length : Int) = p.size := by
  have hbody := length_flatMap_expand h
  have hfirst : p.expanded.length = 1 + (p.body.flatMap Instruction.expand).length :=
    Nat.add_comm (p.body.flatMap Instruction.expand).length 1
  rw [hfirst, size]
  omega

end Program

end CodelCurve
