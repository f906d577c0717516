import CodelCurve.Proofs.Machine.Levels

/-! Instructions in other surroundings. The machine looks at the top of its stack only, adds to its output at the end
and goes on from where it stands and heads. So an instruction does the same with more below the stack, after other
output and elsewhere in the plane, turned around by any number of quarter-turns, and fails there for the same reason;
only a stack that was too short may not be so any more. -/

namespace CodelCurve

namespace Position

/-- A quarter-turn of the plane around the origin. -/
def turned (p : Position) : Position := ⟨-p.y, p.x⟩

/-- A number of quarter-turns of the plane around the origin, clockwise when positive. -/
def rotated (p : Position) (quarterTurns : Int) : Position := Nat.repeat turned (quarterTurns % 4).toNat p

def moved (p offset : Position) : Position := ⟨p.x + offset.x, p.y + offset.y⟩

theorem turned_stepped (p : Position) (h : Heading) (steps : Int) :
    (p.stepped h steps).turned = p.turned.stepped h.clockwise steps := by
  rw [ext_iff]
  cases h <;> simp only [turned, stepped, Heading.clockwise, Heading.unit, and_true] <;> omega

theorem rotated_stepped (p : Position) (h : Heading) (steps quarterTurns : Int) :
    (p.stepped h steps).rotated quarterTurns = (p.rotated quarterTurns).stepped (h.rotated quarterTurns) steps := by
  unfold rotated Heading.rotated
  induction (quarterTurns % 4).toNat with
  | zero => rfl
  | succ n ih => rw [Nat.repeat, Nat.repeat, Nat.repeat, ih, turned_stepped]

theorem moved_stepped (p offset : Position) (h : Heading) (steps : Int) :
    (p.stepped h steps).moved offset = (p.moved offset).stepped h steps := by
  rw [ext_iff]
  simp only [moved, stepped]
  omega

end Position

theorem Heading.rotated_comm (h : Heading) (m n : Int) : (h.rotated m).rotated n = (h.rotated n).rotated m := by
  have hturn : ∀ k h, Nat.repeat clockwise k (clockwise h) = clockwise (Nat.repeat clockwise k h) := by
    intro k h
    induction k with
    | zero => rfl
    | succ k ih => rw [Nat.repeat, Nat.repeat, ih]
  unfold rotated
  induction (m % 4).toNat with
  | zero => rfl
  | succ k ih => rw [Nat.repeat, Nat.repeat, hturn, ih]

/-- What may surround a run: values below its stack, output before its own, and a place in the plane. -/
structure Surroundings where
  below : List Int
  printed : String
  quarterTurns : Int
  offset : Position

/-- The stack was too short for a primitive. -/
def Fault.Underflow (fault : Fault) : Prop := ∃ op needed found, fault = .stackUnderflow op needed found

namespace Surroundings

variable (w : Surroundings)

/-- A state in the surroundings: the plane is turned around its origin and then moved. -/
def place (s : State) : State where
  stack := s.stack ++ w.below
  block := s.block
  position := (s.position.rotated w.quarterTurns).moved w.offset
  heading := s.heading.rotated w.quarterTurns
  output := w.printed ++ s.output

theorem place_advance (s : State) (steps : Int) : w.place (s.advance steps) = (w.place s).advance steps := by
  simp only [place, State.advance, Position.rotated_stepped, Position.moved_stepped]

theorem place_rotate (s : State) (quarterTurns : Int) :
    w.place (s.rotate quarterTurns) = (w.place s).rotate quarterTurns := by
  simp only [place, State.rotate, Heading.rotated_comm _ quarterTurns]

theorem place_print (s : State) (text : String) :
    w.place { s with output := s.output ++ text } = { w.place s with output := (w.place s).output ++ text } := by
  simp only [place, String.append_assoc]

/-- An outcome carries over to the surroundings: a result as it is placed there, and a fault as it is unless it was an
underflow. -/
def Carries (x y : Except Fault State) : Prop :=
  (∀ s, x = .ok s → y = .ok (w.place s)) ∧ ∀ fault, x = .error fault → ¬ fault.Underflow → y = .error fault

namespace Carries

variable {w}

theorem ok (s : State) : w.Carries (.ok s) (.ok (w.place s)) :=
  ⟨fun _ h => by rw [Except.ok.inj h], fun _ h => (by cases h)⟩

theorem error (fault : Fault) : w.Carries (.error fault) (.error fault) :=
  ⟨fun _ h => (by cases h), fun _ h _ => h⟩

theorem underflow {fault : Fault} (h : fault.Underflow) (y : Except Fault State) : w.Carries (.error fault) y :=
  ⟨fun _ h => (by cases h), fun _ heq hnot => absurd (Except.error.inj heq ▸ h) hnot⟩

theorem bind {x y : Except Fault State} {f g : State → Except Fault State} (h : w.Carries x y)
    (hnext : ∀ s, w.Carries (f s) (g (w.place s))) : w.Carries (x >>= f) (y >>= g) := by
  cases x with
  | ok s =>
      rw [h.1 s rfl]
      exact hnext s
  | error fault =>
      by_cases hunderflow : fault.Underflow
      · exact underflow hunderflow _
      · rw [h.2 fault rfl hunderflow]
        exact error fault

theorem withTop {o : Op} {f : Int → State → Except Fault State} (s : State)
    (hf : ∀ top t, w.Carries (f top t) (f top (w.place t))) :
    w.Carries (s.withTop o f) ((w.place s).withTop o f) := by
  obtain ⟨stack, block, p, h, out⟩ := s
  cases stack with
  | nil => exact underflow ⟨_, _, _, rfl⟩ _
  | cons top rest => exact hf top ⟨rest, block, p, h, out⟩

theorem combine {o : Op} {f : Int → Int → Except Fault Int} (s : State) :
    w.Carries (s.combine o f) ((w.place s).combine o f) := by
  obtain ⟨stack, block, p, h, out⟩ := s
  match stack with
  | [] => exact underflow ⟨_, _, _, rfl⟩ _
  | [a] => exact underflow ⟨_, _, _, rfl⟩ _
  | b :: a :: rest =>
      show w.Carries (f a b >>= _) (f a b >>= _)
      cases f a b with
      | error fault => exact error fault
      | ok c => exact ok ⟨c :: rest, block, p, h, out⟩

theorem perform {o : Op} (ho : o ≠ .init) (s : State) : w.Carries (o.perform s) (o.perform (w.place s)) := by
  cases o <;> simp only [Op.perform]
  case init => exact absurd rfl ho
  case extend => exact ok { s with block := s.block + 1 }
  case push =>
      by_cases hblock : s.block ≤ 0
      · rw [if_pos hblock, if_pos (show (w.place s).block ≤ 0 from hblock)]
        exact error _
      · rw [if_neg hblock, if_neg (show ¬ (w.place s).block ≤ 0 from hblock)]
        exact ok { s with stack := s.block :: s.stack }
  case add | subtract | multiply | divide => exact combine s
  case pop => exact withTop s fun _ t => ok t
  case duplicate => exact withTop s fun top t => ok { t with stack := top :: top :: t.stack }
  case pointer =>
      refine withTop s fun top t => ?_
      rw [← place_rotate]
      exact ok _
  case outNumber =>
      refine withTop s fun top t => ?_
      rw [String.append_assoc, String.append_assoc, ← place_print]
      exact ok _
  case outChar =>
      refine withTop s fun top t => ?_
      cases charOfCode? top with
      | none => exact error _
      | some c =>
          simp only [String.push_eq_append]
          rw [← place_print]
          exact ok _

theorem apply {o : Op} (ho : o ≠ .init) (s : State) : w.Carries (o.apply s) (o.apply (w.place s)) := by
  refine (perform ho s).bind fun t => ?_
  have hblock : (if o = .extend then w.place t else { w.place t with block := 1 }) =
      w.place (if o = .extend then t else { t with block := 1 }) := by
    split <;> rfl
  simp only [hblock, ← place_advance]
  exact ok _

theorem enter (i : Instruction) (s : State) : w.Carries (i.enter s) (i.enter (w.place s)) := by
  unfold Instruction.enter
  split
  · by_cases hblock : s.block = 1
    · rw [if_pos hblock, if_pos (show (w.place s).block = 1 from hblock)]
      exact ok s
    · rw [if_neg hblock, if_neg (show (w.place s).block ≠ 1 from hblock)]
      exact error _
  · exact ok s

end Carries

end Surroundings

namespace Instruction

theorem init_not_mem_parts (i : Instruction) : op .init ∉ i.parts := by
  have hdoublings : ∀ n, Op.init ∉ doublings n := by
    intro n
    induction n with
    | zero => exact List.not_mem_nil
    | succ n ih => simp [doublings, ih]
  cases i with
  | op o => exact List.not_mem_nil
  | resize length => simp [parts, List.mem_replicate]
  | uTurn turn => cases turn <;> decide
  | noOp length =>
      simp only [parts]
      split <;> simp [hdoublings]
  | number f =>
      cases f with
      | leaf n =>
          simp only [parts, blockOf]
          split <;> simp
      | binary operator left right => cases operator <;> simp [parts, Operator.op]
      | power base exponent => simp [parts, List.mem_replicate]

variable {w : Surroundings}

theorem carries_run {level : Nat} {is : List Instruction}
    (h : ∀ i ∈ is, ∀ s, w.Carries (running.instruction level i s) (running.instruction level i (w.place s)))
    (s : State) : w.Carries (running.run level is s) (running.run level is (w.place s)) := by
  induction is generalizing s with
  | nil => exact .ok s
  | cons i rest ih =>
      exact (h i List.mem_cons_self s).bind (ih fun j hj => h j (List.mem_cons_of_mem _ hj))

theorem carries_instruction {i : Instruction} (hi : i ≠ op .init) (level : Nat) (s : State) :
    w.Carries (running.instruction level i s) (running.instruction level i (w.place s)) := by
  induction i using parts_induction generalizing level s with
  | hop o => exact .apply (fun ho => hi (congrArg op ho)) s
  | hparts i hcomposite ih =>
      rw [Pass.instruction_eq_parts _ _ hcomposite, Pass.instruction_eq_parts _ _ hcomposite]
      refine (Surroundings.Carries.enter i s).bind fun t => carries_run (fun j hj => ?_) t
      have hj' : j ≠ op .init := fun h => init_not_mem_parts i (h ▸ hj)
      exact fun u => ih j hj hj' (level + 1) u

/-- An instruction other than the first codel does in any surroundings what it does without them: where it succeeds,
the result is the same in the surroundings, and where it fails for another reason than a short stack, the fault is the
same. -/
theorem apply_place (w : Surroundings) {i : Instruction} (hi : i ≠ op .init) (s : State) :
    (∀ t, i.apply s = .ok t → i.apply (w.place s) = .ok (w.place t)) ∧
    ∀ fault, i.apply s = .error fault → ¬ fault.Underflow → i.apply (w.place s) = .error fault :=
  carries_instruction hi 0 s

/-- A U-turn takes a run from east to west, and so it takes a run elsewhere from north to south. A division by zero
fails after other output too. -/
theorem apply_place_northward :
    let w : Surroundings := ⟨[5], "ab", -1, ⟨3, -2⟩⟩
    (uTurn .anticlockwise ≠ op .init ∧
      (uTurn .anticlockwise).apply ⟨[], 1, ⟨0, 0⟩, .east, "c"⟩ = .ok ⟨[], 1, ⟨4, -2⟩, .west, "c"⟩ ∧
      (uTurn .anticlockwise).apply ⟨[5], 1, ⟨3, -2⟩, .north, "abc"⟩ = .ok ⟨[5], 1, ⟨1, -6⟩, .south, "abc"⟩) ∧
    op .divide ≠ op .init ∧ (op .divide).apply ⟨[0, 7], 1, ⟨0, 0⟩, .east, "c"⟩ = .error .divisionByZero ∧
      ¬ Fault.divisionByZero.Underflow ∧
      (op .divide).apply (w.place ⟨[0, 7], 1, ⟨0, 0⟩, .east, "c"⟩) = .error .divisionByZero := by
  intro w
  have huTurn : uTurn .anticlockwise ≠ op .init := by decide
  have hdivide : op .divide ≠ op .init := by decide
  have hfault : ¬ Fault.divisionByZero.Underflow := by
    rintro ⟨_, _, _, h⟩
    cases h
  have heast : (uTurn .anticlockwise).apply ⟨[], 1, ⟨0, 0⟩, .east, "c"⟩ = .ok ⟨[], 1, ⟨4, -2⟩, .west, "c"⟩ := rfl
  exact ⟨⟨huTurn, heast, (apply_place w huTurn _).1 _ heast⟩, hdivide, rfl, hfault,
    (apply_place w hdivide _).2 _ rfl hfault⟩

end Instruction

end CodelCurve
