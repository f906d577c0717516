import CodelCurve.Machine.Program
import CodelCurve.Proofs.Curve.InducedPath
import CodelCurve.Proofs.Machine.Pass

/-! Runs that note every primitive with the state in which it is executed. A run of a program, with its codels and
with its fault, is a function of the visits noted; they are those of its primitives, in order. Where the machine
travels along a path, the visits stand on the cells of the path, and when these are distinct the codels list
them. -/

namespace CodelCurve

/-- A primitive and the state in which it is executed. -/
structure Visit where
  op : Op
  state : State

/-- A run in progress, with its visits, the last first. -/
structure Journey where
  state : State
  visits : List Visit

namespace Journey

def start : Journey := ⟨.start, []⟩

/-- The pass that notes visits. -/
def visiting : Pass (Except Fault) Journey where
  enter _ i j := do
    let state ← i.enter j.state
    return { j with state := state }
  step _ o j := do
    let state ← o.apply j.state
    return ⟨state, ⟨o, j.state⟩ :: j.visits⟩

def turtle (j : Journey) : Curve.Turtle := ⟨j.state.position, j.state.heading⟩

/-- The total shift of colour over visits. -/
def shiftOf : List Visit → Shift
  | [] => .zero
  | v :: earlier => shiftOf earlier + v.op.shift

/-- The codels that visits leave behind. -/
def codelsOf : List Visit → CodelMap
  | [] => .empty
  | v :: earlier => (codelsOf earlier).insert v.state.position (shiftOf (v :: earlier))

def trace (j : Journey) : Trace := ⟨j.state, codelsOf j.visits, shiftOf j.visits⟩

def execution (j : Journey) : Execution := ⟨j.state, codelsOf j.visits⟩

theorem visiting_step_eq_ok {level : Nat} {o : Op} {j j' : Journey} (h : visiting.step level o j = .ok j') :
    o.apply j.state = .ok j'.state ∧ j'.visits = ⟨o, j.state⟩ :: j.visits := by
  obtain ⟨state, happly, hresult⟩ := bind_eq_ok h
  cases hresult
  exact ⟨happly, rfl⟩

theorem visiting_enter_eq_ok {level : Nat} {i : Instruction} {j j' : Journey}
    (h : visiting.enter level i j = .ok j') : i.enter j.state = .ok j'.state ∧ j'.visits = j.visits := by
  obtain ⟨state, henter, hresult⟩ := bind_eq_ok h
  cases hresult
  exact ⟨henter, rfl⟩

/-- A recorded run goes hand in hand with the visits it is read off. -/
theorem visiting_simulates_recording :
    visiting.Simulates Trace.recording (fun j t => t = j.trace) (fun _ => True) where
  enter level i j t hjt := by
    have hrecord : Trace.recording.enter level i j.trace =
        i.enter j.state >>= fun state => .ok { j.trace with state := state } := rfl
    have hvisit : visiting.enter level i j = i.enter j.state >>= fun state => .ok { j with state := state } := rfl
    rw [hjt, hrecord, hvisit]
    cases i.enter j.state with
    | error e => rfl
    | ok state => rfl
  step level o j t _ hjt := by
    have hrecord : Trace.recording.step level o j.trace = o.apply j.state >>= fun state =>
        .ok ⟨state, (codelsOf j.visits).insert j.state.position (shiftOf j.visits + o.shift),
          shiftOf j.visits + o.shift⟩ := rfl
    have hvisit : visiting.step level o j =
        o.apply j.state >>= fun state => .ok ⟨state, ⟨o, j.state⟩ :: j.visits⟩ := rfl
    rw [hjt, hrecord, hvisit]
    cases o.apply j.state with
    | error e => rfl
    | ok state => rfl

/-- A recorded run reaches the states of the plain one. -/
theorem recording_simulates_running :
    Trace.recording.Simulates Instruction.running (fun t s => s = t.state) (fun _ => True) where
  enter level i t s hts := by
    have hrecord : Trace.recording.enter level i t =
        i.enter t.state >>= fun state => .ok { t with state := state } := rfl
    have hrun : Instruction.running.enter level i t.state = i.enter t.state := rfl
    rw [hts, hrecord, hrun]
    cases i.enter t.state with
    | error e => rfl
    | ok state => rfl
  step level o t s _ hts := by
    have hrecord : Trace.recording.step level o t = o.apply t.state >>= fun state =>
        .ok ⟨state, t.codels.insert t.state.position (t.shift + o.shift), t.shift + o.shift⟩ := rfl
    have hrun : Instruction.running.step level o t.state = o.apply t.state := rfl
    rw [hts, hrecord, hrun]
    cases o.apply t.state with
    | error e => rfl
    | ok state => rfl

theorem checking_visiting : visiting.Checking where
  enter {level i j j'} h := by
    obtain ⟨henter, hvisits⟩ := visiting_enter_eq_ok h
    have hstate : j'.state = j.state := by
      unfold Instruction.enter at henter
      split at henter
      · split at henter
        · exact (Except.ok.inj henter).symm
        · cases henter
      · exact (Except.ok.inj henter).symm
    cases j
    cases j'
    exact congr (congrArg Journey.mk hstate) hvisits
  step _ _ _ _ := rfl

theorem map_op_of_ops {level : Nat} {os : List Op} {j j' : Journey} (h : visiting.ops level os j = .ok j') :
    j'.visits.map Visit.op = os.reverse ++ j.visits.map Visit.op := by
  induction os generalizing j with
  | nil =>
      cases h
      rfl
  | cons o rest ih =>
      obtain ⟨j₁, hstep, hrest⟩ := bind_eq_ok h
      rw [ih hrest, (visiting_step_eq_ok hstep).2, List.reverse_cons, List.append_assoc]
      rfl

end Journey

namespace Program

theorem trace_run_eq (is : List Instruction) (t : Trace) : Trace.run is t = Trace.recording.run 0 is t := by
  induction is generalizing t with
  | nil => rfl
  | cons i rest ih =>
      have hfirst : Trace.run (i :: rest) t = Trace.recording.instruction 0 i t >>= Trace.run rest := rfl
      have hfirst' : Trace.recording.run 0 (i :: rest) t =
          Trace.recording.instruction 0 i t >>= Trace.recording.run 0 rest := rfl
      rw [hfirst, hfirst']
      exact congrArg _ (funext ih)

/-- The run of a program that notes its visits. -/
def journey (p : Program) : Except Fault Journey := Journey.visiting.run 0 p.instructions .start

/-- The primitives that a run executes with the states in which it does, in order. -/
def visits (p : Program) : Except Fault (List Visit) := p.journey.map fun j => j.visits.reverse

theorem run_eq_map_journey (p : Program) : p.run = p.journey.map Journey.execution := by
  have hagree : Agree (fun j t => t = Journey.trace j) p.journey (Trace.recording.run 0 p.instructions .start) :=
    Journey.visiting_simulates_recording.run 0 (fun _ _ _ _ => trivial) rfl
  have hrun : p.run = Trace.run p.instructions .start >>= fun t => .ok ⟨t.state, t.codels⟩ := rfl
  rw [hrun, trace_run_eq, hagree.eq_map]
  cases p.journey <;> rfl

theorem map_state_run (p : Program) :
    p.run.map Execution.state = Instruction.running.run 0 p.instructions .start := by
  have hagree : Agree (fun t s => s = Trace.state t) (Trace.recording.run 0 p.instructions .start)
      (Instruction.running.run 0 p.instructions .start) :=
    Journey.recording_simulates_running.run 0 (fun _ _ _ _ => trivial) rfl
  have hrun : p.run = Trace.run p.instructions .start >>= fun t => .ok ⟨t.state, t.codels⟩ := rfl
  rw [hrun, trace_run_eq, hagree.eq_map]
  cases Trace.recording.run 0 p.instructions .start <;> rfl

/-- The visits of a run are those of the primitives, each once and in order. -/
theorem map_op_visits {p : Program} {vs : List Visit} (h : p.visits = .ok vs) : vs.map Visit.op = p.expanded := by
  unfold visits at h
  cases hjourney : p.journey with
  | error e =>
      rw [hjourney] at h
      cases h
  | ok j =>
      rw [hjourney] at h
      cases h
      have hops : Journey.visiting.ops 0 p.expanded .start = .ok j := Journey.checking_visiting.run hjourney
      have hstart : Journey.start.visits.map Visit.op = [] := rfl
      rw [List.map_reverse, Journey.map_op_of_ops hops, hstart, List.append_nil, List.reverse_reverse]

end Program

/-! ### Travelling along a path -/

namespace State

theorem withTop_eq_ok {s t : State} {o : Op} {f : Int → State → Except Fault State} (h : s.withTop o f = .ok t) :
    ∃ top rest, s.stack = top :: rest ∧ f top { s with stack := rest } = .ok t := by
  unfold withTop at h
  cases hstack : s.stack with
  | nil =>
      rw [hstack] at h
      cases h
  | cons top rest =>
      rw [hstack] at h
      exact ⟨top, rest, rfl, h⟩

theorem combine_eq_ok {s t : State} {o : Op} {f : Int → Int → Except Fault Int} (h : s.combine o f = .ok t) :
    ∃ stack, t = { s with stack := stack } := by
  unfold combine at h
  split at h
  · obtain ⟨c, _, hresult⟩ := bind_eq_ok h
    exact ⟨_, (Except.ok.inj hresult).symm⟩
  · cases h

end State

namespace Op

/-- Only the pointer changes the heading, and nothing moves before the codel is done. -/
theorem perform_keeps {o : Op} {s t : State} (h : o.perform s = .ok t) (ho : o ≠ .pointer) :
    t.position = s.position ∧ t.heading = s.heading := by
  cases o <;> simp only [perform] at h
  case init =>
      split at h
      · cases h
        exact ⟨rfl, rfl⟩
      · cases h
  case extend =>
      cases h
      exact ⟨rfl, rfl⟩
  case push =>
      split at h
      · cases h
      · cases h
        exact ⟨rfl, rfl⟩
  case pointer => exact absurd rfl ho
  case add | subtract | multiply | divide =>
      obtain ⟨stack, rfl⟩ := State.combine_eq_ok h
      exact ⟨rfl, rfl⟩
  case pop | duplicate | outNumber =>
      obtain ⟨top, rest, _, hresult⟩ := State.withTop_eq_ok h
      cases hresult
      exact ⟨rfl, rfl⟩
  case outChar =>
      obtain ⟨top, rest, _, hresult⟩ := State.withTop_eq_ok h
      split at hresult
      · cases hresult
        exact ⟨rfl, rfl⟩
      · cases hresult

theorem apply_moves {o : Op} {s t : State} (h : o.apply s = .ok t) (ho : o ≠ .pointer) :
    t.position = s.position.stepped s.heading 1 ∧ t.heading = s.heading := by
  obtain ⟨u, hperform, hresult⟩ := bind_eq_ok h
  obtain ⟨hposition, hheading⟩ := perform_keeps hperform ho
  cases hresult
  rw [← hposition, ← hheading]
  by_cases hextend : o = extend
  · rw [if_pos hextend]
    exact ⟨rfl, rfl⟩
  · rw [if_neg hextend]
    exact ⟨rfl, rfl⟩

theorem block_of_apply {o : Op} {s t : State} (h : o.apply s = .ok t) :
    t.block = if o = .extend then s.block + 1 else 1 := by
  obtain ⟨u, hperform, hresult⟩ := bind_eq_ok h
  cases hresult
  by_cases ho : o = .extend
  · subst ho
    cases hperform
    rfl
  · rw [if_neg ho, if_neg ho]
    rfl

end Op

namespace Journey

/-- The machine goes along a path: it comes to where the path leads, and the new visits stand on the cells that the
path leaves. -/
structure Travels (j : Journey) (path : Curve.Path) (j' : Journey) : Prop where
  turtle : j'.turtle = j.turtle.follow path
  visits : ∃ vs, j'.visits = vs ++ j.visits ∧
    (vs.reverse.map fun v => v.state.position) = (j.turtle.cells path).dropLast

namespace Travels

variable {j j' j'' : Journey} {path path' : Curve.Path}

theorem refl (j : Journey) : j.Travels [] j := ⟨rfl, [], rfl, rfl⟩

theorem trans (h : j.Travels path j') (h' : j'.Travels path' j'') : j.Travels (path ++ path') j'' := by
  obtain ⟨vs, hvs, hcells⟩ := h.visits
  obtain ⟨vs', hvs', hcells'⟩ := h'.visits
  refine ⟨?_, vs' ++ vs, ?_, ?_⟩
  · rw [h'.turtle, h.turtle, Curve.Turtle.follow_append]
  · rw [hvs', hvs, List.append_assoc]
  · rw [List.reverse_append, List.map_append, hcells, hcells', h.turtle, Curve.Turtle.cells_append,
      List.dropLast_append_of_ne_nil (Curve.Turtle.cells_ne_nil _ _)]

end Travels

theorem travels_step {level : Nat} {o : Op} {j j' : Journey} (h : visiting.step level o j = .ok j')
    (ho : o ≠ .pointer) : j.Travels (Curve.ahead 1) j' := by
  obtain ⟨happly, hvisits⟩ := visiting_step_eq_ok h
  obtain ⟨hposition, hheading⟩ := Op.apply_moves happly ho
  refine ⟨?_, [⟨o, j.state⟩], hvisits, rfl⟩
  rw [turtle, hposition, hheading]
  rfl

/-- Primitives other than the pointer lead straight ahead, a codel each. -/
theorem travels_ops {level : Nat} {os : List Op} {j j' : Journey} (h : visiting.ops level os j = .ok j')
    (hos : ∀ o ∈ os, o ≠ .pointer) : j.Travels (Curve.ahead os.length) j' := by
  induction os generalizing j with
  | nil =>
      cases h
      exact .refl _
  | cons o rest ih =>
      obtain ⟨j₁, hstep, hrest⟩ := bind_eq_ok h
      have hfirst := travels_step hstep (hos o List.mem_cons_self)
      exact hfirst.trans (ih hrest fun o ho => hos o (List.mem_cons_of_mem _ ho))

/-- A U-turn leads straight through its set-up and then around a corner. -/
theorem travels_uTurn {level : Nat} {turn : Turn} {j j' : Journey}
    (h : visiting.instruction level (.uTurn turn) j = .ok j') :
    j.Travels (Curve.ahead ((Instruction.uTurn turn).expand.length - 3) ++ Curve.corner turn) j' := by
  obtain ⟨j₁, henter, hrest⟩ := bind_eq_ok h
  have hblock : j.state.block = 1 := by
    obtain ⟨hcheck, _⟩ := visiting_enter_eq_ok henter
    by_cases hone : j.state.block = 1
    · exact hone
    · have hfails : (Instruction.uTurn turn).enter j.state = .error (.unexpectedBlock .uTurn j.state.block) :=
        if_neg hone
      rw [hfails] at hcheck
      cases hcheck
  have hops : visiting.ops 0 (Instruction.uTurn turn).expand j = .ok j' := checking_visiting.instruction h
  obtain ⟨⟨stack, block, p, heading, out⟩, vs⟩ := j
  cases hblock
  cases turn with
  | clockwise =>
      cases hops
      exact ⟨rfl, [_, _, _, _, _, _], rfl, rfl⟩
  | anticlockwise =>
      cases hops
      exact ⟨rfl, [_, _, _, _, _, _, _, _], rfl, rfl⟩

end Journey

/-! ### The codels of visits -/

namespace Journey

/-- Visits of distinct cells leave a codel for each, in their order. -/
theorem recent_codelsOf {vs : List Visit} (h : (vs.map fun v => v.state.position).Nodup) :
    (codelsOf vs).recent = vs.map fun v => v.state.position := by
  induction vs with
  | nil => rfl
  | cons v earlier ih =>
      rw [List.map_cons, List.nodup_cons] at h
      rw [codelsOf, CodelMap.recent_insert, ih h.2, if_neg h.1, List.map_cons]

theorem Travels.positions {path : Curve.Path} {j : Journey} (h : start.Travels path j) :
    (j.visits.reverse.map fun v => v.state.position) = (Curve.Turtle.start.cells path).take path.length := by
  obtain ⟨vs, hvs, hcells⟩ := h.visits
  have hvisits : j.visits = vs := hvs.trans (List.append_nil vs)
  rw [hvisits, hcells, List.dropLast_eq_take, Curve.Turtle.length_cells, Nat.add_sub_cancel]
  rfl

/-- A run along a path without a cell twice leaves a codel on each cell but the last, in order. -/
theorem Travels.recent {path : Curve.Path} {j : Journey} (h : start.Travels path j)
    (hnodup : (Curve.Turtle.start.cells path).Nodup) :
    (codelsOf j.visits).recent.reverse = (Curve.Turtle.start.cells path).take path.length := by
  have hpositions := h.positions
  rw [List.map_reverse] at hpositions
  have hdistinct : (j.visits.map fun v => v.state.position).Nodup := by
    rw [← (List.reverse_perm _).nodup_iff, hpositions]
    exact hnodup.sublist (List.take_sublist _ _)
  rw [recent_codelsOf hdistinct, hpositions]

end Journey

end CodelCurve
