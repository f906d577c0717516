import CodelCurve.Proofs.Layout.Escalation

/-! Packing in closed form. What the slots take and give back comes to a rule without a history: each slot holds the
longest front of the units still waiting that it can be completed with, and a filler for the codels left over. Along a
path without slots of a single codel nothing else can happen, and packing fails only for want of space. -/

namespace CodelCurve

namespace Layout

/-- Of all fronts of the units that fill a slot, the longest. -/
structure Longest (capacity : Int) (units front : List Instruction) : Prop where
  isFront : front <+: units
  fills : Fills capacity front
  longest : ∀ other, other <+: units → Fills capacity other → other.length ≤ front.length

/-- Instructions along segments, made of the units that were placed while the rest is left: a U-turn for each turn, and
for each slot the longest front of the units that wait there, with a filler unless it is full. -/
inductive LaidOut (left : List Instruction) : List Token → List Instruction → List Instruction → Prop
  | nil : LaidOut left [] [] []
  | start {ts : List Token} {placed body : List Instruction} :
      LaidOut left ts placed body → LaidOut left (.start :: ts) placed body
  | turn {ts : List Token} {placed body : List Instruction} (turn : Turn) :
      LaidOut left ts placed body → LaidOut left (.turn turn :: ts) placed (.uTurn turn :: body)
  | full {ts : List Token} {placed body front : List Instruction} {capacity : Int} :
      Longest capacity (front ++ placed ++ left) front → Program.sizeOf front = capacity →
        LaidOut left ts placed body → LaidOut left (.slot capacity :: ts) (front ++ placed) (front ++ body)
  | filled {ts : List Token} {placed body front : List Instruction} {capacity : Int} (length : Length) :
      Longest capacity (front ++ placed ++ left) front → Program.sizeOf front + length.codels = capacity →
        LaidOut left ts placed body →
          LaidOut left (.slot capacity :: ts) (front ++ placed) (front ++ .noOp length :: body)

theorem LaidOut.slot {left placed body front : List Instruction} {ts : List Token} {capacity : Int}
    (hcapacity : 0 ≤ capacity) (hlongest : Longest capacity (front ++ placed ++ left) front)
    (h : LaidOut left ts placed body) :
    LaidOut left (.slot capacity :: ts) (front ++ placed)
      (front ++ filling (capacity - Program.sizeOf front) ++ body) := by
  have hfits := hlongest.fills.fits hcapacity
  have hfree := hlongest.fills.free
  unfold filling
  cases hlength : Length.ofInt? (capacity - Program.sizeOf front) with
  | none =>
      have hsmall := Length.ofInt?_eq_none hlength
      simpa using h.full hlongest (by omega)
  | some length =>
      have hcodels := (Length.ofInt?_eq_some hlength).2
      simpa using h.filled length hlongest (by omega)

theorem Slot.exists_longest {capacity : Int} (hcapacity : 2 ≤ capacity) {units : List Instruction}
    (hunits : ∀ u ∈ units, 0 ≤ u.size) :
    ∃ slot front, pack? capacity units = some slot ∧ units = front ++ slot.waiting ∧
      Longest capacity units front ∧ slot.contents.reverse = front ++ filling (capacity - Program.sizeOf front) := by
  have hwide : capacity ≠ 1 := by omega
  obtain ⟨slot, hslot⟩ := exists_pack hwide units
  obtain ⟨front, horder, hfills, hcontents⟩ := pack?_eq_some hunits hslot
  refine ⟨slot, front, hslot, horder, ⟨⟨slot.waiting, horder.symm⟩, hfills, ?_⟩, hcontents⟩
  intro other hother hfills'
  have hlength := length_le_of_fills hunits (by omega) hslot hother hfills'
  have htotal : units.length = front.length + slot.waiting.length := by
    rw [horder, List.length_append]
  omega

/-- Packing along segments never fails before their end and lays out as much as the slots can hold. -/
theorem Packing.exists_laidOut (path : List Token) {ts : List Token}
    (hts : ∀ capacity, .slot capacity ∈ ts → 2 ≤ capacity) {units : List Instruction}
    (hunits : ∀ u ∈ units, 0 ≤ u.size) (before : List Instruction) :
    ∃ placed left body, units = placed ++ left ∧ LaidOut left ts placed body ∧
      tokens path ts ⟨before, units⟩ = .ok ⟨body.reverse ++ before, left⟩ := by
  induction ts generalizing units before with
  | nil => exact ⟨[], units, [], rfl, .nil, rfl⟩
  | cons t rest ih =>
      have hrest : ∀ capacity, .slot capacity ∈ rest → 2 ≤ capacity :=
        fun capacity h => hts capacity (List.mem_cons_of_mem _ h)
      cases t with
      | start =>
          obtain ⟨placed, left, body, horder, hlaid, htokens⟩ := ih hrest hunits before
          exact ⟨placed, left, body, horder, hlaid.start, htokens⟩
      | turn turn =>
          obtain ⟨placed, left, body, horder, hlaid, htokens⟩ := ih hrest hunits (.uTurn turn :: before)
          refine ⟨placed, left, .uTurn turn :: body, horder, hlaid.turn turn, ?_⟩
          rw [List.reverse_cons, List.append_assoc, List.singleton_append]
          exact htokens
      | slot capacity =>
          have hcapacity := hts capacity List.mem_cons_self
          obtain ⟨slot, front, hslot, hfront, hlongest, hcontents⟩ := Slot.exists_longest hcapacity hunits
          have hwaiting : ∀ u ∈ slot.waiting, 0 ≤ u.size := by
            intro u hu
            apply hunits
            rw [hfront]
            exact List.mem_append_right _ hu
          obtain ⟨placed, left, body, horder, hlaid, htokens⟩ := ih hrest hwaiting (slot.contents ++ before)
          rw [hfront, horder, ← List.append_assoc] at hlongest
          refine ⟨front ++ placed, left, _, ?_, hlaid.slot (by omega) hlongest, ?_⟩
          · rw [hfront, horder, List.append_assoc]
          · rw [← hcontents, List.reverse_append, List.reverse_reverse, List.append_assoc, ← htokens, tokens, token,
              hslot]
            rfl

/-- Along a path whose slots all have two codels or more, units are laid out by the longest fronts that fill the slots,
in their order. Packing succeeds with what is laid out when none of them is left, and tells otherwise how many are. -/
theorem pack_eq_laid_out {units : List Instruction} {path : List Token} (hunits : ∀ u ∈ units, 0 < u.size)
    (hpath : ∀ capacity, .slot capacity ∈ path → 2 ≤ capacity) :
    ∃ placed left body, units = placed ++ left ∧ LaidOut left path placed body ∧
      pack units path = if left = [] then .ok ⟨body⟩
        else .error (.notEnoughSpace left.length (Token.texts path) (Token.texts path)) := by
  obtain ⟨placed, left, body, horder, hlaid, htokens⟩ :=
    Packing.exists_laidOut path hpath (fun u hu => Int.le_of_lt (hunits u hu)) []
  refine ⟨placed, left, body, horder, hlaid, ?_⟩
  rw [pack_of_tokens htokens, List.append_nil, List.reverse_reverse]
  simp only [List.isEmpty_iff]

/-- A resize to seven codels passes over a slot that it would fill by itself, and the last slot has no room for a
resize to three and the push after it. -/
theorem pack_eq_laid_out_carried :
    let units : List Instruction := [.op .push, .resize ⟨7, by decide⟩, .op .push, .resize .three, .op .push]
    let path : List Token := [.start, .slot 5, .turn .clockwise, .slot 6, .turn .anticlockwise, .slot 7,
      .turn .clockwise, .slot 2]
    (∀ u ∈ units, 0 < u.size) ∧ (∀ capacity, .slot capacity ∈ path → 2 ≤ capacity) ∧
      ∃ placed left body, units = placed ++ left ∧ LaidOut left path placed body ∧ left.length = 2 ∧
        pack units path = .error (.notEnoughSpace 2 (Token.texts path) (Token.texts path)) := by
  intro units path
  have hunits : ∀ u ∈ units, 0 < u.size := by decide
  have hpath : ∀ capacity, .slot capacity ∈ path → 2 ≤ capacity := by
    simp [path]
  have hpack : pack units path = .error (.notEnoughSpace 2 (Token.texts path) (Token.texts path)) := rfl
  obtain ⟨placed, left, body, horder, hlaid, hequation⟩ := pack_eq_laid_out hunits hpath
  refine ⟨hunits, hpath, placed, left, body, horder, hlaid, ?_, hpack⟩
  rw [hpack] at hequation
  split at hequation
  · cases hequation
  · injection hequation with hfailure
    injection hfailure with hlength
    exact hlength.symm

end Layout

end CodelCurve
