import CodelCurve.Layout.Fit
import CodelCurve.Proofs.Machine.Size

/-! What a packed program looks like. It has the units in their order; each slot holds some of them and a filler for
what is left over, and never ends with a resize; each turn is a U-turn. A path along which units can be packed leaves
none over. -/

namespace CodelCurve

namespace Layout

open Program (sizeOf_append sizeOf_singleton)

/-! ### Slots -/

namespace Slot

/-- The slot holds a front part of the units, and its capacity is accounted for. -/
structure Holds (capacity : Int) (units : List Instruction) (slot : Slot) : Prop where
  order : slot.held.reverse ++ slot.waiting = units
  account : slot.free + Program.sizeOf slot.held.reverse = capacity
  room : 0 ≤ capacity → 0 ≤ slot.free

variable {capacity : Int} {units : List Instruction}

theorem Holds.accept {held waiting : List Instruction} {free : Int} {unit : Instruction}
    (h : Holds capacity units ⟨held, free, unit :: waiting⟩) (hfits : unit.size ≤ free) :
    Holds capacity units ⟨unit :: held, free - unit.size, waiting⟩ where
  order := by simpa using h.order
  account := by
    have haccount : free + Program.sizeOf held.reverse = capacity := h.account
    show free - unit.size + Program.sizeOf (unit :: held).reverse = capacity
    rw [List.reverse_cons, sizeOf_append, sizeOf_singleton]
    omega
  room := by
    intro _
    show 0 ≤ free - unit.size
    omega

theorem Holds.release {held waiting : List Instruction} {free : Int} {unit : Instruction}
    (h : Holds capacity units ⟨unit :: held, free, waiting⟩) (hsize : 0 ≤ unit.size) :
    Holds capacity units ⟨held, free + unit.size, unit :: waiting⟩ where
  order := by simpa using h.order
  account := by
    have haccount : free + Program.sizeOf (unit :: held).reverse = capacity := h.account
    rw [List.reverse_cons, sizeOf_append, sizeOf_singleton] at haccount
    show free + unit.size + Program.sizeOf held.reverse = capacity
    omega
  room := by
    intro hcapacity
    have hroom : 0 ≤ free := h.room hcapacity
    show 0 ≤ free + unit.size
    omega

theorem Holds.take {held : List Instruction} {free : Int} {waiting : List Instruction}
    (h : Holds capacity units ⟨held, free, waiting⟩) : Holds capacity units (take held free waiting) := by
  induction waiting generalizing held free with
  | nil => exact h
  | cons unit waiting ih =>
      unfold Slot.take
      by_cases hfits : unit.size ≤ free
      · rw [if_pos hfits]
        exact ih (h.accept hfits)
      · rw [if_neg hfits]
        exact h

/-- What is given back leaves a slot that a filler can complete: no filler is a single codel, and none may follow a
resize. -/
theorem Holds.giveBack (hunits : ∀ u ∈ units, 0 ≤ u.size) {held : List Instruction} {free : Int}
    {waiting : List Instruction} {slot : Slot} (h : Holds capacity units ⟨held, free, waiting⟩)
    (hslot : giveBack held free waiting = some slot) :
    Holds capacity units slot ∧ slot.free ≠ 1 ∧ ∀ u ∈ slot.held.head?, u.isResize = false := by
  induction held generalizing free waiting with
  | nil =>
      unfold Slot.giveBack at hslot
      by_cases hone : free = 1
      · rw [if_pos hone] at hslot
        cases hslot
      · rw [if_neg hone] at hslot
        cases hslot
        exact ⟨h, hone, fun u hu => by cases hu⟩
  | cons unit held ih =>
      unfold Slot.giveBack at hslot
      by_cases hback : (unit.isResize || decide (free = 1)) = true
      · rw [if_pos hback] at hslot
        refine ih (h.release ?_) hslot
        apply hunits
        rw [← h.order]
        simp
      · rw [if_neg hback] at hslot
        cases hslot
        simp only [Bool.or_eq_true, decide_eq_true_eq, not_or] at hback
        refine ⟨h, hback.2, fun u hu => ?_⟩
        cases hu
        exact Bool.eq_false_iff.mpr hback.1

end Slot

/-- Units that a slot can hold, with room for a filler or none left. -/
structure Fills (capacity : Int) (units : List Instruction) : Prop where
  last : ∀ u ∈ units.getLast?, u.isResize = false
  free : capacity - Program.sizeOf units ≠ 1
  fits : 0 ≤ capacity → Program.sizeOf units ≤ capacity

/-- The filler for a number of codels, when there are at least two. -/
def filling (free : Int) : List Instruction := ((Length.ofInt? free).map Instruction.noOp).toList

theorem reverse_filling (free : Int) : (filling free).reverse = filling free := by
  unfold filling
  cases Length.ofInt? free <;> rfl

theorem sizeOf_filling {free : Int} (hfree : 0 ≤ free) (hone : free ≠ 1) : Program.sizeOf (filling free) = free := by
  unfold filling
  cases hlength : Length.ofInt? free with
  | none =>
      have hsmall := Length.ofInt?_eq_none hlength
      show (0 : Int) = free
      omega
  | some length =>
      have hcodels := (Length.ofInt?_eq_some hlength).2
      exact (Program.sizeOf_singleton _).trans hcodels

theorem Slot.pack?_eq_some {capacity : Int} {units : List Instruction} {slot : Slot}
    (hunits : ∀ u ∈ units, 0 ≤ u.size) (h : pack? capacity units = some slot) :
    ∃ front, units = front ++ slot.waiting ∧ Fills capacity front ∧
      slot.contents.reverse = front ++ filling (capacity - Program.sizeOf front) := by
  have hstart : Holds capacity units ⟨[], capacity, units⟩ := ⟨rfl, Int.add_zero _, id⟩
  obtain ⟨hholds, hfree, hlast⟩ := hstart.take.giveBack hunits h
  have hroom : slot.free = capacity - Program.sizeOf slot.held.reverse := by
    have haccount := hholds.account
    omega
  refine ⟨slot.held.reverse, hholds.order.symm, ⟨?_, ?_, ?_⟩, ?_⟩
  · rw [List.getLast?_reverse]
    exact hlast
  · rw [← hroom]
    exact hfree
  · intro hcapacity
    have := hholds.room hcapacity
    omega
  · rw [contents, List.reverse_append, ← hroom]
    exact congrArg _ (reverse_filling slot.free)

/-! ### Whole paths -/

/-- Units packed along segments, as a list of instructions. -/
inductive Packed : List Token → List Instruction → List Instruction → Prop
  | nil : Packed [] [] []
  | start {ts : List Token} {units body : List Instruction} : Packed ts units body → Packed (.start :: ts) units body
  | turn {ts : List Token} {units body : List Instruction} (turn : Turn) :
      Packed ts units body → Packed (.turn turn :: ts) units (.uTurn turn :: body)
  | slot {ts : List Token} {units body front : List Instruction} {capacity : Int} :
      Fills capacity front → Packed ts units body →
        Packed (.slot capacity :: ts) (front ++ units) (front ++ filling (capacity - Program.sizeOf front) ++ body)

theorem Packing.tokens_eq_ok {path ts : List Token} {placed units : List Instruction} {q : Packing}
    (hunits : ∀ u ∈ units, 0 ≤ u.size) (h : tokens path ts ⟨placed, units⟩ = .ok q) :
    ∃ front body, units = front ++ q.waiting ∧ q.placed = body.reverse ++ placed ∧ Packed ts front body := by
  induction ts generalizing placed units with
  | nil =>
      cases h
      exact ⟨[], [], rfl, rfl, .nil⟩
  | cons t rest ih =>
      obtain ⟨p, htoken, hrest⟩ := bind_eq_ok h
      cases t with
      | start =>
          cases htoken
          obtain ⟨front, body, horder, hplaced, hpacked⟩ := ih hunits hrest
          exact ⟨front, body, horder, hplaced, hpacked.start⟩
      | turn turn =>
          cases htoken
          obtain ⟨front, body, horder, hplaced, hpacked⟩ := ih hunits hrest
          refine ⟨front, .uTurn turn :: body, horder, ?_, hpacked.turn turn⟩
          rw [hplaced, List.reverse_cons, List.append_assoc, List.singleton_append]
      | slot capacity =>
          simp only [token] at htoken
          cases hslot : Slot.pack? capacity units with
          | none =>
              rw [hslot] at htoken
              cases htoken
          | some slot =>
              rw [hslot] at htoken
              cases htoken
              obtain ⟨head, hhead, hfills, hcontents⟩ := Slot.pack?_eq_some hunits hslot
              have hwaiting : ∀ u ∈ slot.waiting, 0 ≤ u.size := by
                intro u hu
                apply hunits
                rw [hhead]
                exact List.mem_append_right _ hu
              obtain ⟨front, body, horder, hplaced, hpacked⟩ := ih hwaiting hrest
              refine ⟨head ++ front, _, ?_, ?_, .slot hfills hpacked⟩
              · rw [hhead, horder, List.append_assoc]
              · rw [hplaced, List.reverse_append, ← hcontents, List.reverse_reverse, List.append_assoc]

/-- Packing along a path gives a packed program. -/
theorem packed_of_pack {units : List Instruction} {path : List Token} {p : Program}
    (hunits : ∀ u ∈ units, 0 ≤ u.size) (h : pack units path = .ok p) : Packed path units p.body := by
  obtain ⟨q, htokens, hend⟩ := bind_eq_ok h
  obtain ⟨front, body, horder, hplaced, hpacked⟩ := Packing.tokens_eq_ok hunits htokens
  by_cases hempty : q.waiting.isEmpty = true
  · rw [if_pos hempty] at hend
    cases hend
    rw [List.isEmpty_iff] at hempty
    rw [hempty, List.append_nil] at horder
    rw [horder, hplaced, List.append_nil, List.reverse_reverse]
    exact hpacked
  · rw [if_neg hempty] at hend
    cases hend

end Layout

end CodelCurve
