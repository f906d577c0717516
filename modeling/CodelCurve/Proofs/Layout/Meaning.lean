import CodelCurve.Proofs.Layout.Packing
import CodelCurve.Proofs.Machine.Effect
import CodelCurve.Proofs.Machine.Visits

/-! Laying units out changes where they are executed and nothing else. Primitives other than the first codel do not
look at the position or the heading, and the fillers and U-turns put in between leave the rest of the state alone.
They always begin after a block of one codel, for no slot ends with a resize. So a program that was packed prints,
stacks and fails as its units in a row do. -/

namespace CodelCurve

/-- What is left of a run apart from places: the stack, the output and the size of the last block. -/
def Execution.result (e : Execution) : List Int × String × Int := (e.state.stack, e.state.output, e.state.block)

namespace State

/-- The states differ at most in position and heading. -/
structure Same (s t : State) : Prop where
  stack : s.stack = t.stack
  block : s.block = t.block
  output : s.output = t.output

variable {s t : State} {o : Op}

theorem Same.trans {u : State} (h : s.Same t) (h' : t.Same u) : s.Same u :=
  ⟨h.stack.trans h'.stack, h.block.trans h'.block, h.output.trans h'.output⟩

theorem Same.withTop (h : s.Same t) {f : Int → State → Except Fault State}
    (hf : ∀ top {s t : State}, s.Same t → Agree Same (f top s) (f top t)) :
    Agree Same (s.withTop o f) (t.withTop o f) := by
  unfold State.withTop
  rw [← h.stack]
  cases s.stack with
  | nil => rfl
  | cons top rest => exact hf top ⟨rfl, h.block, h.output⟩

theorem Same.combine (h : s.Same t) {f : Int → Int → Except Fault Int} :
    Agree Same (s.combine o f) (t.combine o f) := by
  unfold State.combine
  rw [← h.stack]
  split
  · rename_i b a rest _
    cases f a b with
    | error e => rfl
    | ok c => exact ⟨rfl, h.block, h.output⟩
  · rfl

theorem Same.perform (h : s.Same t) (ho : o ≠ .init) : Agree Same (o.perform s) (o.perform t) := by
  cases o <;> simp only [Op.perform]
  case init => exact absurd rfl ho
  case extend => exact ⟨h.stack, congrArg (· + 1) h.block, h.output⟩
  case push =>
      rw [← h.block]
      by_cases hblock : s.block ≤ 0
      · rw [if_pos hblock, if_pos hblock]
        rfl
      · rw [if_neg hblock, if_neg hblock]
        exact ⟨congrArg (s.block :: ·) h.stack, rfl, h.output⟩
  case add | subtract | multiply | divide => exact h.combine
  case pop | pointer => exact h.withTop fun top s t hst => ⟨hst.stack, hst.block, hst.output⟩
  case duplicate =>
      exact h.withTop fun top s t hst => ⟨congrArg (top :: top :: ·) hst.stack, hst.block, hst.output⟩
  case outNumber =>
      exact h.withTop fun top s t hst =>
        ⟨hst.stack, hst.block, congrArg (· ++ toString top ++ " ") hst.output⟩
  case outChar =>
      refine h.withTop fun top s t hst => ?_
      cases charOfCode? top with
      | none => rfl
      | some c => exact ⟨hst.stack, hst.block, congrArg (·.push c) hst.output⟩

theorem Same.apply (h : s.Same t) (ho : o ≠ .init) : Agree Same (o.apply s) (o.apply t) := by
  refine (h.perform ho).bind fun s t hst => ?_
  by_cases hextend : o = .extend
  · rw [if_pos hextend, if_pos hextend]
    exact ⟨hst.stack, hst.block, hst.output⟩
  · rw [if_neg hextend, if_neg hextend]
    exact ⟨hst.stack, rfl, hst.output⟩

end State

open State (Same)

namespace Instruction

/-- A unit of a program: a resize, or a primitive other than the first codel and an extension. -/
def IsUnit : Instruction → Prop
  | op o => o ≠ .init ∧ o ≠ .extend
  | resize _ => True
  | _ => False

instance : DecidablePred IsUnit
  | op o => inferInstanceAs (Decidable (o ≠ .init ∧ o ≠ .extend))
  | resize _ => isTrue trivial
  | uTurn _ => isFalse id
  | noOp _ => isFalse id
  | number _ => isFalse id

theorem IsUnit.size_nonneg {u : Instruction} (h : u.IsUnit) : 0 ≤ u.size := by
  cases u with
  | op o => exact Int.one_nonneg
  | resize length =>
      have := length.two_le
      show 0 ≤ (length.codels : Int) - 1
      omega
  | uTurn | noOp | number => exact h.elim

theorem IsUnit.proper {u : Instruction} (h : u.IsUnit) : u.Proper := by
  cases u with
  | op | resize => trivial
  | uTurn | noOp | number => exact h.elim

theorem IsUnit.ne_init {u : Instruction} (h : u.IsUnit) {o : Op} (ho : o ∈ u.expand) : o ≠ .init := by
  cases u with
  | op o' =>
      rw [List.mem_singleton.mp ho]
      exact h.1
  | resize length =>
      rw [List.eq_of_mem_replicate ho]
      decide
  | uTurn | noOp | number => exact h.elim

theorem running_simulates_same : running.Simulates running Same (· ≠ .init) where
  enter level i s t hst := by
    show Agree Same (i.enter s) (i.enter t)
    unfold enter
    rw [← hst.block]
    split
    · by_cases hblock : s.block = 1
      · rw [if_pos hblock, if_pos hblock]
        exact hst
      · rw [if_neg hblock, if_neg hblock]
        rfl
    · exact hst
  step _ _ _ _ ho hst := hst.apply ho

theorem block_apply {o : Op} {s t : State} (ho : o ≠ .extend) (h : o.apply s = .ok t) : t.block = 1 := by
  rw [Op.block_of_apply h, if_neg ho]

/-- Units that do not end with a resize leave a block of one codel behind. -/
theorem block_run {level : Nat} {units : List Instruction} {s t : State} (hunits : ∀ u ∈ units, u.IsUnit)
    (hlast : ∀ u ∈ units.getLast?, u.isResize = false) (hblock : s.block = 1)
    (h : running.run level units s = .ok t) : t.block = 1 := by
  obtain rfl | ⟨front, u, rfl⟩ := List.eq_nil_or_concat units
  · cases h
    exact hblock
  · rw [List.concat_eq_append] at hunits hlast h
    have hunit : u.IsUnit := hunits u (by simp)
    rw [Pass.run_append] at h
    obtain ⟨s', _, hend⟩ := bind_eq_ok h
    obtain ⟨t', happly, hresult⟩ := bind_eq_ok hend
    cases hresult
    cases u with
    | op o => exact block_apply hunit.2 happly
    | resize length => cases hlast (.resize length) (by simp)
    | uTurn | noOp | number => exact hunit.elim

end Instruction

namespace Layout

open Instruction (running)

theorem running_filling {free : Int} (hfree : free ≤ 127) {s : State} (hblock : s.block = 1) :
    ∃ t, running.run 0 (filling free) s = .ok t ∧ s.Same t := by
  unfold filling
  cases hlength : Length.ofInt? free with
  | none => exact ⟨s, rfl, rfl, rfl, rfl⟩
  | some length =>
      have hcodels := (Length.ofInt?_eq_some hlength).2
      obtain ⟨stack, block, p, h, out⟩ := s
      obtain rfl : block = 1 := hblock
      have hnoOp : running.instruction 0 (.noOp length) ⟨stack, 1, p, h, out⟩ =
          .ok ⟨stack, 1, p.stepped h length.codels, h, out⟩ := Instruction.running_noOp 0 (by omega)
      refine ⟨⟨stack, 1, p.stepped h length.codels, h, out⟩, ?_, rfl, rfl, rfl⟩
      show (running.instruction 0 (.noOp length) _ >>= _) = _
      rw [hnoOp]
      rfl

theorem running_turn (turn : Turn) {s : State} (hblock : s.block = 1) :
    ∃ t, running.instruction 0 (.uTurn turn) s = .ok t ∧ s.Same t := by
  obtain ⟨stack, block, p, h, out⟩ := s
  obtain rfl : block = 1 := hblock
  exact ⟨_, Instruction.running_uTurn 0 turn, rfl, rfl, rfl⟩

/-- Packed units do the same as the units in a row, up to places, and fail for the same reason. -/
theorem Packed.agree {ts : List Token} {units body : List Instruction} (hpacked : Packed ts units body)
    (hunits : ∀ u ∈ units, u.IsUnit) (hcapacity : ∀ capacity, .slot capacity ∈ ts → capacity ≤ 127) {s t : State}
    (hst : s.Same t) (hblock : s.block = 1) : Agree Same (running.run 0 units s) (running.run 0 body t) := by
  induction hpacked generalizing s t with
  | nil => exact hst
  | start _ ih => exact ih hunits (fun c hc => hcapacity c (List.mem_cons_of_mem _ hc)) hst hblock
  | @turn ts units body turn _ ih =>
      obtain ⟨t', hturn, htt⟩ := running_turn turn (hst.block.symm.trans hblock)
      have hbody : running.run 0 (.uTurn turn :: body) t = running.run 0 body t' := by
        show (running.instruction 0 (.uTurn turn) t >>= _) = _
        rw [hturn]
        rfl
      rw [hbody]
      exact ih hunits (fun c hc => hcapacity c (List.mem_cons_of_mem _ hc)) (hst.trans htt) hblock
  | @slot ts units body front capacity hfills _ ih =>
      have hfront : ∀ u ∈ front, u.IsUnit := fun u hu => hunits u (List.mem_append_left _ hu)
      have hfree : capacity - Program.sizeOf front ≤ 127 := by
        have hsize := Program.sizeOf_nonneg fun u hu => (hfront u hu).size_nonneg
        have := hcapacity capacity List.mem_cons_self
        omega
      rw [Pass.run_append, List.append_assoc, Pass.run_append]
      refine (Instruction.running_simulates_same.run 0 (fun u hu _ ho => (hfront u hu).ne_init ho) hst).bind_of_ok
        fun s' t' hrun hst' => ?_
      -- The filler insists on a block of one codel, and a front that does not end with a resize leaves one.
      have hblock' : s'.block = 1 := Instruction.block_run hfront hfills.last hblock hrun
      obtain ⟨t'', hfiller, htt⟩ := running_filling hfree (hst'.block.symm.trans hblock')
      rw [Pass.run_append, hfiller, ok_bind]
      exact ih (fun u hu => hunits u (List.mem_append_right _ hu))
        (fun c hc => hcapacity c (List.mem_cons_of_mem _ hc)) (hst'.trans htt) hblock'

/-- The runs of a packed program and of its units in a row end in the same state, up to places, or with the same
fault. -/
theorem Packed.agree_run {path : List Token} {units body : List Instruction} (hpacked : Packed path units body)
    (hunits : ∀ u ∈ units, u.IsUnit) (hcapacity : ∀ capacity, .slot capacity ∈ path → capacity ≤ 127) :
    Agree Same ((Program.run ⟨units⟩).map Execution.state) ((Program.run ⟨body⟩).map Execution.state) := by
  rw [Program.map_state_run, Program.map_state_run]
  exact hpacked.agree hunits hcapacity ⟨rfl, rfl, rfl⟩ rfl

/-- A program packed into slots of up to 127 codels has the result of its units in a row, be it a stack, an output
and a block or a fault. -/
theorem map_result_run_of_pack {units : List Instruction} {path : List Token} {p : Program}
    (hunits : ∀ u ∈ units, u.IsUnit) (hcapacity : ∀ capacity, .slot capacity ∈ path → capacity ≤ 127)
    (h : pack units path = .ok p) : p.run.map Execution.result = (Program.run ⟨units⟩).map Execution.result := by
  have hpacked := packed_of_pack (fun u hu => (hunits u hu).size_nonneg) h
  have hresult : ∀ x : Except Fault Execution,
      x.map Execution.result = (x.map Execution.state).map fun s => (s.stack, s.output, s.block) := by
    intro x
    cases x <;> rfl
  rw [hresult, hresult]
  refine ((hpacked.agree_run hunits hcapacity).map_eq fun s t hst => ?_).symm
  rw [hst.stack, hst.output, hst.block]

/-- A resize and the primitive that uses its block are kept together although the first slot has room for the resize
alone. -/
theorem map_result_run_of_pack_resize :
    let units : List Instruction := [.op .push, .resize .three, .op .push, .op .subtract, .op .outNumber]
    let path : List Token := [.start, .slot 3, .turn .clockwise, .slot 6, .turn .anticlockwise, .slot 3]
    let p : Program := ⟨[.op .push, .noOp .two, .uTurn .clockwise, .resize .three, .op .push, .op .subtract,
      .noOp .two, .uTurn .anticlockwise, .op .outNumber, .noOp .two]⟩
    (∀ u ∈ units, u.IsUnit) ∧ (∀ capacity, .slot capacity ∈ path → capacity ≤ 127) ∧ pack units path = .ok p ∧
      p.run.map Execution.result = (Program.run ⟨units⟩).map Execution.result := by
  intro units path p
  have hunits : ∀ u ∈ units, u.IsUnit := by decide
  have hcapacity : ∀ capacity, .slot capacity ∈ path → capacity ≤ 127 := by
    intro capacity hcapacity
    simp only [path, List.mem_cons, List.not_mem_nil, Token.slot.injEq, reduceCtorEq, false_or, or_false] at hcapacity
    omega
  have hpack : pack units path = .ok p := rfl
  exact ⟨hunits, hcapacity, hpack, map_result_run_of_pack hunits hcapacity hpack⟩

end Layout

end CodelCurve
