import CodelCurve.Proofs.Machine.Visits

/-! Instructions taken apart. A composite is known from its parts: its units and what a pass makes of it are those of its
parts in a row, after a check where it begins. So a run that succeeds is the same run, with the same codels, when all
composites are replaced by their units or by their primitives. Only the checks of fillers and U-turns are lost on the
way; a program without these fails where its units fail. -/

namespace CodelCurve

namespace Instruction

/-- What holds of the primitives, and of a composite when it holds of its parts, holds of every instruction. -/
theorem parts_induction {P : Instruction → Prop} (hop : ∀ o, P (op o))
    (hparts : ∀ i : Instruction, i.isOp = false → (∀ j ∈ i.parts, P j) → P i) (i : Instruction) : P i := by
  have hops : ∀ os : List Op, ∀ j ∈ os.map op, P j := by
    intro os j hj
    obtain ⟨o, _, rfl⟩ := List.mem_map.mp hj
    exact hop o
  have hresize : ∀ length, P (resize length) := by
    intro length
    apply hparts _ rfl
    intro j hj
    rw [List.eq_of_mem_replicate hj]
    exact hop .extend
  have hnumber : ∀ f, P (number f) := by
    intro f
    apply hparts _ rfl
    induction f with
    | leaf n =>
        simp only [parts, blockOf]
        cases Length.ofInt? n <;> simp [hop, hresize]
    | binary operator left right ihleft ihright =>
        simp [parts, hop, hparts _ rfl ihleft, hparts _ rfl ihright]
    | power base exponent ih =>
        simp [parts, hparts _ rfl ih, or_imp, forall_and, List.mem_replicate, hop]
  cases i with
  | op o => exact hop o
  | resize length => exact hresize length
  | number f => exact hnumber f
  | uTurn turn =>
      apply hparts _ rfl
      cases turn with
      | clockwise => exact hops pivot
      | anticlockwise => exact List.forall_mem_cons.mpr ⟨hresize _, hops pivot⟩
  | noOp length =>
      apply hparts _ rfl
      simp only [parts, List.cons_append, List.forall_mem_cons, List.forall_mem_append]
      refine ⟨hop _, ⟨?_, hops _⟩, by simp [hop]⟩
      split <;> simp [hresize]

theorem flatMap_units_map_op (os : List Op) : (os.map op).flatMap units = os.map op := by
  simp [List.flatMap_map, units, ← List.map_eq_flatMap]

theorem units_eq_flatMap_parts {i : Instruction} (hop : i.isOp = false) (hresize : i.isResize = false) :
    i.units = i.parts.flatMap units := by
  cases i with
  | op o => cases hop
  | resize length => cases hresize
  | uTurn turn => cases turn <;> rfl
  | noOp length =>
      simp only [units, parts, List.cons_append, List.flatMap_cons, List.flatMap_append, flatMap_units_map_op]
      split <;> rfl
  | number f =>
      cases f with
      | leaf n =>
          simp only [units, Formula.units, parts, blockOf]
          cases Length.ofInt? n <;> rfl
      | binary operator left right => simp [units, Formula.units, parts]
      | power base exponent =>
          simp only [units, Formula.units, parts, List.cons_append, List.flatMap_cons, List.flatMap_append,
            ← List.map_replicate, flatMap_units_map_op, List.append_assoc]

end Instruction

namespace Pass

section Parts

variable {σ : Type} (pass : Pass (Except Fault) σ)

theorem run_map_op (level : Nat) (os : List Op) : pass.run level (os.map .op) = pass.ops level os := by
  funext s
  induction os generalizing s with
  | nil => rfl
  | cons o rest ih => exact bind_congr ih

theorem run_singleton (level : Nat) (i : Instruction) : pass.run level [i] = pass.instruction level i := by
  funext s
  exact bind_pure (pass.instruction level i s)

/-- A composite is its beginning and then its parts, one level further in. -/
theorem instruction_eq_parts (level : Nat) {i : Instruction} (h : i.isOp = false) (s : σ) :
    pass.instruction level i s = pass.enter level i s >>= pass.run (level + 1) i.parts := by
  have htimes : ∀ (o : Op) (n : Nat),
      pass.times (level + 1) o n = pass.run (level + 1) (List.replicate n (.op o)) := by
    intro o n
    funext s
    rw [← List.map_replicate, run_map_op, times_eq_ops]
  cases i with
  | op o => cases h
  | resize length => exact bind_congr fun t => congrFun (htimes .extend _) t
  | uTurn turn =>
      refine bind_congr fun t => ?_
      cases turn with
      | clockwise => exact (congrFun (pass.run_map_op _ _) t).symm
      | anticlockwise => exact bind_congr fun u => (congrFun (pass.run_map_op _ _) u).symm
  | noOp length =>
      simp only [instruction, Instruction.parts, List.cons_append, run]
      refine bind_congr fun t => bind_congr fun u => ?_
      rw [run_append, run_append, run_map_op, run_singleton, bind_assoc]
      by_cases hodd : length.codels % 2 = 1
      · rw [if_pos hodd, if_pos hodd, run_singleton]
        rfl
      · rw [if_neg hodd, if_neg hodd]
        rfl
  | number f =>
      refine bind_congr fun t => ?_
      cases f with
      | leaf n =>
          rw [Instruction.parts, Instruction.blockOf, run_append, run_singleton, formula]
          cases Length.ofInt? n with
          | none => rfl
          | some length =>
              show _ = pass.run (level + 1) [.resize length] t >>= _
              rw [run_singleton]
              rfl
      | binary operator left right =>
          show _ = pass.instruction _ (.number left) t >>= fun u =>
            pass.instruction _ (.number right) u >>= pass.run _ [.op operator.op]
          rw [run_singleton, formula]
          simp only [instruction, bind_assoc]
          rfl
      | power base exponent =>
          rw [Instruction.parts, List.cons_append, run, formula, htimes, htimes]
          simp only [run_append, instruction, bind_assoc]

end Parts

/-! ### Units in a row -/

section Rows

variable {σ : Type} {pass : Pass (Except Fault) σ}

theorem run_flatMap_units {level level' : Nat} {is : List Instruction}
    (h : ∀ i ∈ is, ∀ s t, pass.instruction level i s = .ok t → pass.run level' i.units s = .ok t) {s t : σ}
    (hok : pass.run level is s = .ok t) : pass.run level' (is.flatMap Instruction.units) s = .ok t := by
  induction is generalizing s with
  | nil => exact hok
  | cons i rest ih =>
      obtain ⟨s', hfirst, hrest⟩ := bind_eq_ok hok
      rw [List.flatMap_cons, run_append, h i List.mem_cons_self s s' hfirst]
      exact ih (fun j hj => h j (List.mem_cons_of_mem _ hj)) hrest

theorem Checking.instruction_units (h : Checking pass) (hplain : Plain pass) {level level' : Nat} {i : Instruction}
    {s t : σ} (hok : pass.instruction level i s = .ok t) : pass.run level' i.units s = .ok t := by
  induction i using Instruction.parts_induction generalizing level s t with
  | hop o => exact (hplain.run_op level' level o s).trans hok
  | hparts i hi ih =>
      cases hresize : i.isResize with
      | true =>
          obtain ⟨length, rfl⟩ : ∃ length, i = .resize length := by
            cases i <;> simp_all [Instruction.isResize]
          rw [Instruction.units, run_singleton]
          exact (hplain.resize level' level length s).trans hok
      | false =>
          -- The check where the composite begins is dropped; it has passed and changed nothing.
          rw [instruction_eq_parts pass level hi] at hok
          obtain ⟨s', henter, hparts⟩ := bind_eq_ok hok
          rw [h.enter henter] at hparts
          rw [Instruction.units_eq_flatMap_parts hi hresize]
          exact run_flatMap_units (fun j hj _ _ => ih j hj) hparts

/-- Where instructions succeed, so do the units they stand for, with the same result. -/
theorem Checking.run_units (h : Checking pass) (hplain : Plain pass) {level level' : Nat} {is : List Instruction}
    {s t : σ} (hok : pass.run level is s = .ok t) :
    pass.run level' (is.flatMap Instruction.units) s = .ok t :=
  run_flatMap_units (fun _ _ _ _ => h.instruction_units hplain) hok

theorem Plain.instruction_units (h : Plain pass) (level : Nat) {i : Instruction}
    (hi : i.isOp = true ∨ i.isResize = true ∨ ∃ f, i = .number f) (s : σ) :
    pass.run level i.units s = pass.instruction level i s := by
  cases i with
  | op o => exact congrFun (pass.run_singleton level _) s
  | resize length => exact congrFun (pass.run_singleton level _) s
  | uTurn | noOp => simp [Instruction.isOp, Instruction.isResize] at hi
  | number f =>
      rw [Instruction.units, h.run_units level level, instruction, h.number]
      rfl

/-- Without fillers and U-turns, units do the same as the instructions they stand for, and fail for the same reason. -/
theorem Plain.run_flatMap_units (h : Plain pass) (level : Nat) {is : List Instruction}
    (his : ∀ i ∈ is, i.isOp = true ∨ i.isResize = true ∨ ∃ f, i = .number f) (s : σ) :
    pass.run level (is.flatMap Instruction.units) s = pass.run level is s := by
  induction is generalizing s with
  | nil => rfl
  | cons i rest ih =>
      rw [List.flatMap_cons, run_append, h.instruction_units level (his i List.mem_cons_self)]
      exact bind_congr (ih fun j hj => his j (List.mem_cons_of_mem _ hj))

end Rows

end Pass

/-! ### Programs -/

theorem Journey.plain_visiting : visiting.Plain := ⟨fun _ _ _ _ => rfl, fun _ _ _ _ => rfl, fun _ _ _ => rfl⟩

namespace Program

/-- The program whose instructions are the units of a program. -/
def inUnits (p : Program) : Program := ⟨p.units⟩

/-- The program whose instructions are the primitives of a program. -/
def inPrimitives (p : Program) : Program := ⟨p.expanded.tail.map .op⟩

theorem running_run_eq_foldlM (is : List Instruction) (s : State) :
    Instruction.running.run 0 is s = is.foldlM (fun s i => i.apply s) s := by
  induction is generalizing s with
  | nil => rfl
  | cons i rest ih =>
      rw [List.foldlM_cons]
      exact bind_congr ih

theorem journey_inUnits (p : Program) :
    p.inUnits.journey = Journey.visiting.run 0 (p.instructions.flatMap Instruction.units) .start := rfl

theorem journey_inPrimitives (p : Program) : p.inPrimitives.journey = Journey.visiting.ops 0 p.expanded .start :=
  congrFun (Journey.visiting.run_map_op 0 p.expanded) .start

/-- A run ends as applying the instructions in turn does, in a state or with a fault. A run that succeeds is also that
of the units and that of the primitives, with the same codels in the same order. Without fillers and U-turns the units
have the same fault as well. -/
theorem levels_agree (p : Program) :
    p.run.map Execution.state = p.instructions.foldlM (fun s i => i.apply s) State.start ∧
    (∀ e, p.run = .ok e → p.inUnits.run = .ok e ∧ p.inPrimitives.run = .ok e) ∧
    ((∀ i ∈ p.body, i.isOp = true ∨ i.isResize = true ∨ ∃ f, i = .number f) → p.inUnits.run = p.run) := by
  refine ⟨(map_state_run p).trans (running_run_eq_foldlM _ _), ?_, ?_⟩
  · intro e hrun
    rw [run_eq_map_journey] at hrun
    cases hjourney : p.journey with
    | error fault =>
        rw [hjourney] at hrun
        cases hrun
    | ok j =>
        have hunits : p.inUnits.journey = .ok j :=
          Journey.checking_visiting.run_units Journey.plain_visiting hjourney
        have hprimitives : p.inPrimitives.journey = .ok j :=
          (journey_inPrimitives p).trans (Journey.checking_visiting.run hjourney)
        rw [run_eq_map_journey, run_eq_map_journey, hunits, hprimitives, ← hjourney]
        exact ⟨hrun, hrun⟩
  · intro hbody
    rw [run_eq_map_journey, run_eq_map_journey, journey_inUnits]
    congr 1
    exact Journey.plain_visiting.run_flatMap_units 0 (List.forall_mem_cons.mpr ⟨.inl rfl, hbody⟩) .start

/-- A number printed after a filler and a U-turn is printed by the units and the primitives too. A resize that follows
another one fails, inside a number and among its units. -/
theorem levels_agree_nested :
    let p : Program := ⟨[.number (.binary .add (.power (.leaf 3) 2) (.leaf 1)), .noOp .three, .uTurn .anticlockwise,
      .op .outNumber]⟩
    let q : Program := ⟨[.resize .two, .number (.binary .add (.leaf 3) (.leaf 1))]⟩
    (∃ e, p.run = .ok e ∧ e.state.output = "10 " ∧ p.inUnits.run = .ok e ∧ p.inPrimitives.run = .ok e) ∧
    (∀ i ∈ q.body, i.isOp = true ∨ i.isResize = true ∨ ∃ f, i = .number f) ∧
    q.run.map Execution.state = .error (.unexpectedBlock .resize 2) ∧ q.inUnits.run = q.run := by
  intro p q
  have hbody : ∀ i ∈ q.body, i.isOp = true ∨ i.isResize = true ∨ ∃ f, i = .number f := by
    simp [q, Instruction.isOp, Instruction.isResize]
  refine ⟨?_, hbody, (levels_agree q).1.trans rfl, (levels_agree q).2.2 hbody⟩
  have hstate : ∃ s, p.run.map Execution.state = .ok s ∧ s.output = "10 " := ⟨_, (levels_agree p).1.trans rfl, rfl⟩
  obtain ⟨s, hmap, houtput⟩ := hstate
  cases hrun : p.run with
  | error fault =>
      rw [hrun] at hmap
      cases hmap
  | ok e =>
      rw [hrun] at hmap
      cases hmap
      exact ⟨e, rfl, houtput, (levels_agree p).2.1 e hrun⟩

end Program

end CodelCurve
