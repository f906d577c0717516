import CodelCurve.Machine.Instruction

/-! Passes over instructions compared with each other. Two passes that agree at every primitive and wherever a
composite begins agree on every instruction, on the fault as well as on the result. A pass that only checks where
a composite begins does the same as its primitives in a row, when it succeeds. -/

namespace CodelCurve

/-- Two outcomes agree: both are failures for one reason, or both are successes with related results. -/
def Agree {ε α β : Type} (R : α → β → Prop) : Except ε α → Except ε β → Prop
  | .ok a, .ok b => R a b
  | .error e, .error e' => e = e'
  | _, _ => False

namespace Agree

variable {ε α β γ δ : Type} {R : α → β → Prop} {S : γ → δ → Prop}

theorem pure {a : α} {b : β} (h : R a b) : Agree (ε := ε) R (Pure.pure a) (Pure.pure b) := h

theorem bind_of_ok {x : Except ε α} {y : Except ε β} {f : α → Except ε γ} {g : β → Except ε δ} (h : Agree R x y)
    (hnext : ∀ a b, x = .ok a → R a b → Agree S (f a) (g b)) : Agree S (x >>= f) (y >>= g) := by
  cases x with
  | error e =>
      cases y with
      | error e' => exact h
      | ok b => exact h.elim
  | ok a =>
      cases y with
      | error e' => exact h.elim
      | ok b => exact hnext a b rfl h

theorem bind {x : Except ε α} {y : Except ε β} {f : α → Except ε γ} {g : β → Except ε δ} (h : Agree R x y)
    (hnext : ∀ a b, R a b → Agree S (f a) (g b)) : Agree S (x >>= f) (y >>= g) :=
  h.bind_of_ok fun a b _ => hnext a b

theorem map_eq {x : Except ε α} {y : Except ε β} {f : α → γ} {g : β → γ} (h : Agree R x y)
    (himp : ∀ a b, R a b → f a = g b) : x.map f = y.map g := by
  cases x <;> cases y
  · exact congrArg Except.error h
  · exact h.elim
  · exact h.elim
  · exact congrArg Except.ok (himp _ _ h)

theorem eq_map {x : Except ε α} {y : Except ε β} {f : α → β} (h : Agree (fun a b => b = f a) x y) : y = x.map f := by
  have hmap : x.map f = y.map id := h.map_eq fun a b hab => hab.symm
  rw [hmap]
  cases y <;> rfl

/-- An outcome that agrees with a success is one. -/
theorem of_ok_left {a : α} {y : Except ε β} (h : Agree R (.ok a) y) : ∃ b, y = .ok b ∧ R a b := by
  cases y with
  | error e => exact h.elim
  | ok b => exact ⟨b, rfl, h⟩

end Agree

theorem ok_bind {ε α β : Type} (a : α) (f : α → Except ε β) : (Except.ok a >>= f) = f a := rfl

/-- The parts of a success. -/
theorem bind_eq_ok {ε α β : Type} {x : Except ε α} {f : α → Except ε β} {b : β} (h : x >>= f = .ok b) :
    ∃ a, x = .ok a ∧ f a = .ok b := by
  cases x with
  | error e => cases h
  | ok a => exact ⟨a, rfl, h⟩

theorem Length.ofInt?_eq_some {n : Int} {length : Length} (h : Length.ofInt? n = some length) :
    2 ≤ n ∧ (length.codels : Int) = n := by
  unfold Length.ofInt? at h
  split at h
  · cases h
    exact ⟨by assumption, Int.toNat_of_nonneg (by omega)⟩
  · cases h

theorem Length.ofInt?_eq_none {n : Int} (h : Length.ofInt? n = none) : n < 2 := by
  unfold Length.ofInt? at h
  split at h
  · cases h
  · omega

namespace Pass

section Sequence

variable {σ : Type} (pass : Pass (Except Fault) σ) (level : Nat)

/-- Instructions in turn. -/
def run : List Instruction → σ → Except Fault σ
  | [], s => .ok s
  | i :: rest, s => do
    let s ← pass.instruction level i s
    run rest s

theorem run_append (xs ys : List Instruction) (s : σ) :
    pass.run level (xs ++ ys) s = pass.run level xs s >>= pass.run level ys := by
  induction xs generalizing s with
  | nil => rfl
  | cons i rest ih =>
      simp only [List.cons_append, run]
      cases pass.instruction level i s with
      | error e => rfl
      | ok t => exact ih t

theorem ops_append (xs ys : List Op) (s : σ) :
    pass.ops level (xs ++ ys) s = pass.ops level xs s >>= pass.ops level ys := by
  induction xs generalizing s with
  | nil => rfl
  | cons o rest ih =>
      simp only [List.cons_append, ops]
      cases pass.step level o s with
      | error e => rfl
      | ok t => exact ih t

theorem ops_singleton (o : Op) (s : σ) : pass.ops level [o] s = pass.step level o s := by
  simp only [ops]
  cases pass.step level o s <;> rfl

theorem times_eq_ops (o : Op) (n : Nat) (s : σ) :
    pass.times level o n s = pass.ops level (List.replicate n o) s := by
  induction n generalizing s with
  | zero => rfl
  | succ n ih => simp only [times, List.replicate_succ, ops, ih]

/-- A pass whose steps do not look at the depth does not look at it over primitives in a row. -/
theorem ops_eq_of_step (hstep : ∀ (level level' : Nat) (o : Op) (s : σ), pass.step level o s = pass.step level' o s)
    (level' : Nat) (os : List Op) (s : σ) : pass.ops level os s = pass.ops level' os s := by
  induction os generalizing s with
  | nil => rfl
  | cons o rest ih => simp only [ops, hstep level level', ih]

end Sequence

/-! ### Passes that agree -/

section Simulation

variable {σ τ : Type}

/-- Two passes go hand in hand along a relation of their results, on the primitives that are allowed. -/
structure Simulates (p : Pass (Except Fault) σ) (q : Pass (Except Fault) τ) (R : σ → τ → Prop)
    (allowed : Op → Prop) : Prop where
  enter : ∀ (level : Nat) (i : Instruction) (s : σ) (t : τ), R s t →
    Agree R (p.enter level i s) (q.enter level i t)
  step : ∀ (level : Nat) (o : Op) (s : σ) (t : τ), allowed o → R s t →
    Agree R (p.step level o s) (q.step level o t)

namespace Simulates

variable {p : Pass (Except Fault) σ} {q : Pass (Except Fault) τ} {R : σ → τ → Prop} {allowed : Op → Prop}

theorem ops (h : Simulates p q R allowed) (level : Nat) {os : List Op} (hos : ∀ o ∈ os, allowed o)
    {s : σ} {t : τ} (hst : R s t) : Agree R (p.ops level os s) (q.ops level os t) := by
  induction os generalizing s t with
  | nil => exact Agree.pure hst
  | cons o rest ih =>
      refine (h.step level o s t (hos o List.mem_cons_self) hst).bind fun s t hst => ?_
      exact ih (fun o ho => hos o (List.mem_cons_of_mem _ ho)) hst

theorem times (h : Simulates p q R allowed) (level : Nat) {o : Op} {n : Nat}
    (hos : ∀ o' ∈ List.replicate n o, allowed o') {s : σ} {t : τ} (hst : R s t) :
    Agree R (p.times level o n s) (q.times level o n t) := by
  rw [times_eq_ops, times_eq_ops]
  exact h.ops level hos hst

theorem resize (h : Simulates p q R allowed) (level : Nat) (length : Length) (hextend : allowed .extend)
    {s : σ} {t : τ} (hst : R s t) : Agree R (p.resize level length s) (q.resize level length t) := by
  refine (h.enter level _ s t hst).bind fun s t hst => h.times _ (fun o ho => ?_) hst
  rw [List.eq_of_mem_replicate ho]
  exact hextend

theorem formula (h : Simulates p q R allowed) (level : Nat) (f : Formula) (hos : ∀ o ∈ f.expand, allowed o)
    {s : σ} {t : τ} (hst : R s t) : Agree R (p.formula level f s) (q.formula level f t) := by
  induction f generalizing level s t with
  | leaf n =>
      have hpush : allowed .push := hos _ (by simp [Formula.expand])
      simp only [Pass.formula]
      cases hn : Length.ofInt? n with
      | none => exact h.step _ _ s t hpush hst
      | some length =>
          have hlarge := (Length.ofInt?_eq_some hn).1
          have hextend : allowed .extend := hos _ (by simp [Formula.expand]; omega)
          exact (h.resize _ length hextend hst).bind fun s t hst => h.step _ _ s t hpush hst
  | binary operator left right ihleft ihright =>
      simp only [Formula.expand, List.mem_append, List.mem_singleton] at hos
      refine (h.enter _ _ s t hst).bind fun s t hst => ?_
      refine (ihleft _ (fun o ho => hos o (.inl (.inl ho))) hst).bind fun s t hst => ?_
      refine (h.enter _ _ s t hst).bind fun s t hst => ?_
      refine (ihright _ (fun o ho => hos o (.inl (.inr ho))) hst).bind fun s t hst => ?_
      exact h.step _ _ s t (hos _ (.inr rfl)) hst
  | power base exponent ih =>
      simp only [Formula.expand, List.mem_append] at hos
      refine (h.enter _ _ s t hst).bind fun s t hst => ?_
      refine (ih _ (fun o ho => hos o (.inl (.inl ho))) hst).bind fun s t hst => ?_
      refine (h.times _ (fun o ho => hos o (.inl (.inr ho))) hst).bind fun s t hst => ?_
      exact h.times _ (fun o ho => hos o (.inr ho)) hst

/-- Passes that go hand in hand on its primitives agree on an instruction. -/
theorem instruction (h : Simulates p q R allowed) (level : Nat) {i : Instruction}
    (hos : ∀ o ∈ i.expand, allowed o) {s : σ} {t : τ} (hst : R s t) :
    Agree R (p.instruction level i s) (q.instruction level i t) := by
  cases i with
  | op o => exact h.step level o s t (hos o List.mem_cons_self) hst
  | resize length =>
      have htwo := length.two_le
      exact h.resize level length (hos _ (by simp [Instruction.expand]; omega)) hst
  | uTurn turn =>
      refine (h.enter level _ s t hst).bind fun s t hst => ?_
      cases turn with
      | clockwise => exact h.ops _ hos hst
      | anticlockwise =>
          refine (h.resize _ .three (hos _ List.mem_cons_self) hst).bind fun s t hst => ?_
          exact h.ops _ (fun o ho => hos o (List.mem_cons_of_mem _ (List.mem_cons_of_mem _ ho))) hst
  | noOp length =>
      simp only [Instruction.expand, List.cons_append, List.mem_cons, List.mem_append] at hos
      refine (h.enter level _ s t hst).bind fun s t hst => ?_
      refine (h.step _ _ s t (hos _ (.inl rfl)) hst).bind fun s t hst => ?_
      have hrest : ∀ {s : σ} {t : τ}, R s t → Agree R
          (p.ops (level + 1) (Instruction.doublings (length.codels / 2 - 1)) s >>= p.step (level + 1) .pop)
          (q.ops (level + 1) (Instruction.doublings (length.codels / 2 - 1)) t >>= q.step (level + 1) .pop) := by
        intro s t hst
        refine (h.ops _ (fun o ho => hos o (.inr (.inl (.inr ho)))) hst).bind fun s t hst => ?_
        exact h.step _ _ s t (hos _ (.inr (.inr (.inl rfl)))) hst
      by_cases hodd : length.codels % 2 = 1
      · rw [if_pos hodd, if_pos hodd]
        have hextend : allowed .extend := hos _ (.inr (.inl (.inl (by simp [hodd]))))
        exact (h.resize _ .two hextend hst).bind fun s t hst => hrest hst
      · rw [if_neg hodd, if_neg hodd]
        exact hrest hst
  | number f => exact (h.enter level _ s t hst).bind fun s t hst => h.formula level f hos hst

theorem run (h : Simulates p q R allowed) (level : Nat) {is : List Instruction}
    (hos : ∀ i ∈ is, ∀ o ∈ i.expand, allowed o) {s : σ} {t : τ} (hst : R s t) :
    Agree R (p.run level is s) (q.run level is t) := by
  induction is generalizing s t with
  | nil => exact hst
  | cons i rest ih =>
      refine (h.instruction level (hos i List.mem_cons_self) hst).bind fun s t hst => ?_
      exact ih (fun j hj => hos j (List.mem_cons_of_mem _ hj)) hst

end Simulates

end Simulation

/-! ### Passes that only check -/

section Checking

variable {σ : Type}

/-- The pass changes nothing where a composite begins and does not look at how deep a primitive stands. -/
structure Checking (pass : Pass (Except Fault) σ) : Prop where
  enter : ∀ {level : Nat} {i : Instruction} {s t : σ}, pass.enter level i s = .ok t → t = s
  step : ∀ (level level' : Nat) (o : Op) (s : σ), pass.step level o s = pass.step level' o s

namespace Checking

variable {pass : Pass (Except Fault) σ}

theorem ops_level (h : Checking pass) (level level' : Nat) (os : List Op) (s : σ) :
    pass.ops level os s = pass.ops level' os s :=
  pass.ops_eq_of_step level h.step level' os s

theorem resize (h : Checking pass) {level level' : Nat} {length : Length} {s t : σ}
    (hok : pass.resize level length s = .ok t) :
    pass.ops level' (List.replicate (length.codels - 1) .extend) s = .ok t := by
  obtain ⟨s', henter, htimes⟩ := bind_eq_ok hok
  rw [h.enter henter, times_eq_ops, h.ops_level _ level'] at htimes
  exact htimes

theorem formula (h : Checking pass) {level level' : Nat} {f : Formula} {s t : σ}
    (hok : pass.formula level f s = .ok t) : pass.ops level' f.expand s = .ok t := by
  induction f generalizing level s t with
  | leaf n =>
      simp only [Pass.formula] at hok
      rw [Formula.expand, ops_append]
      cases hn : Length.ofInt? n with
      | none =>
          have hsmall := Length.ofInt?_eq_none hn
          have hnone : n.toNat - 1 = 0 := by omega
          rw [hn] at hok
          rw [hnone]
          show pass.ops level' [.push] s = .ok t
          rw [ops_singleton, h.step level' (level + 1)]
          exact hok
      | some length =>
          have hlength := Length.ofInt?_eq_some hn
          have hcodels : n.toNat - 1 = length.codels - 1 := by omega
          rw [hn] at hok
          obtain ⟨s', hresize, hpush⟩ := bind_eq_ok hok
          rw [hcodels, h.resize hresize]
          rw [h.step _ level', ← ops_singleton] at hpush
          exact hpush
  | binary operator left right ihleft ihright =>
      obtain ⟨s₁, henter, hok⟩ := bind_eq_ok hok
      obtain ⟨s₂, hleft, hok⟩ := bind_eq_ok hok
      obtain ⟨s₃, henter', hok⟩ := bind_eq_ok hok
      obtain ⟨s₄, hright, hok⟩ := bind_eq_ok hok
      rw [h.enter henter] at hleft
      rw [h.enter henter'] at hright
      rw [h.step _ level', ← ops_singleton] at hok
      rw [Formula.expand, ops_append, ops_append, ihleft hleft]
      show (pass.ops level' right.expand s₂ >>= _) = _
      rw [ihright hright]
      exact hok
  | power base exponent ih =>
      obtain ⟨s₁, henter, hok⟩ := bind_eq_ok hok
      obtain ⟨s₂, hbase, hok⟩ := bind_eq_ok hok
      obtain ⟨s₃, hcopies, hok⟩ := bind_eq_ok hok
      rw [h.enter henter] at hbase
      rw [times_eq_ops, h.ops_level _ level'] at hcopies hok
      rw [Formula.expand, ops_append, ops_append, ih hbase]
      show (pass.ops level' (List.replicate (exponent - 1) .duplicate) s₂ >>= _) = _
      rw [hcopies]
      exact hok

/-- Where an instruction succeeds, so do its primitives in a row, with the same result. -/
theorem instruction (h : Checking pass) {level level' : Nat} {i : Instruction} {s t : σ}
    (hok : pass.instruction level i s = .ok t) : pass.ops level' i.expand s = .ok t := by
  cases i with
  | op o =>
      rw [Instruction.expand, ops_singleton, h.step level' level]
      exact hok
  | resize length => exact h.resize hok
  | uTurn turn =>
      obtain ⟨s₁, henter, hok⟩ := bind_eq_ok hok
      rw [h.enter henter] at hok
      cases turn with
      | clockwise => exact (h.ops_level _ _ _ s).trans hok
      | anticlockwise =>
          obtain ⟨s₂, hsetup, hok⟩ := bind_eq_ok hok
          have hexpand : (Instruction.uTurn .anticlockwise).expand =
              List.replicate (Length.three.codels - 1) .extend ++ Instruction.pivot := rfl
          rw [hexpand, ops_append, h.resize hsetup]
          exact (h.ops_level _ _ _ s₂).trans hok
  | noOp length =>
      obtain ⟨s₁, henter, hok⟩ := bind_eq_ok hok
      obtain ⟨s₂, hpush, hok⟩ := bind_eq_ok hok
      rw [h.enter henter, h.step _ level', ← ops_singleton] at hpush
      have hrest : ∀ {s₃ : σ}, pass.ops (level + 1) (Instruction.doublings (length.codels / 2 - 1)) s₃ >>=
          pass.step (level + 1) .pop = .ok t →
            pass.ops level' (Instruction.doublings (length.codels / 2 - 1) ++ [.pop]) s₃ = .ok t := by
        intro s₃ hok
        obtain ⟨s₄, hdouble, hpop⟩ := bind_eq_ok hok
        rw [h.ops_level _ level'] at hdouble
        rw [h.step _ level', ← ops_singleton] at hpop
        rw [ops_append, hdouble]
        exact hpop
      simp only [Instruction.expand, List.cons_append, List.append_assoc]
      rw [← List.singleton_append, ops_append, hpush]
      by_cases hodd : length.codels % 2 = 1
      · rw [if_pos hodd] at hok ⊢
        obtain ⟨s₃, hextra, hok⟩ := bind_eq_ok hok
        have hextend : pass.ops level' [.extend] s₂ = .ok s₃ := h.resize hextra
        show pass.ops level' ([.extend] ++ _) s₂ = _
        rw [ops_append, hextend]
        exact hrest hok
      · rw [if_neg hodd] at hok ⊢
        exact hrest hok
  | number f =>
      obtain ⟨s₁, henter, hok⟩ := bind_eq_ok hok
      rw [h.enter henter] at hok
      exact h.formula hok

theorem run (h : Checking pass) {level level' : Nat} {is : List Instruction} {s t : σ}
    (hok : pass.run level is s = .ok t) : pass.ops level' (is.flatMap Instruction.expand) s = .ok t := by
  induction is generalizing s with
  | nil => exact hok
  | cons i rest ih =>
      obtain ⟨s', hfirst, hrest⟩ := bind_eq_ok hok
      rw [List.flatMap_cons, ops_append, h.instruction hfirst]
      exact ih hrest

end Checking

end Checking

/-! ### Units -/

section Units

variable {σ : Type}

/-- The pass does nothing where a number begins, and the same at every depth. -/
structure Plain (pass : Pass (Except Fault) σ) : Prop where
  enter : ∀ (level level' : Nat) (i : Instruction) (s : σ), pass.enter level i s = pass.enter level' i s
  step : ∀ (level level' : Nat) (o : Op) (s : σ), pass.step level o s = pass.step level' o s
  number : ∀ (level : Nat) (f : Formula) (s : σ), pass.enter level (.number f) s = .ok s

namespace Plain

variable {pass : Pass (Except Fault) σ}

theorem resize (h : Plain pass) (level level' : Nat) (length : Length) (s : σ) :
    pass.resize level length s = pass.resize level' length s := by
  simp only [Pass.resize, times_eq_ops, h.enter level level',
    pass.ops_eq_of_step (level + 1) h.step (level' + 1)]

theorem run_op (h : Plain pass) (level level' : Nat) (o : Op) (s : σ) :
    pass.run level [.op o] s = pass.step level' o s := by
  rw [← h.step level level']
  simp only [run, instruction]
  cases pass.step level o s <;> rfl

theorem run_replicate (h : Plain pass) (level level' : Nat) (o : Op) (n : Nat) (s : σ) :
    pass.run level (List.replicate n (.op o)) s = pass.times level' o n s := by
  induction n generalizing s with
  | zero => rfl
  | succ n ih =>
      rw [List.replicate_succ, times, ← h.step level level']
      simp only [run, instruction, ih]

/-- A formula is the same as the units it is laid out in. -/
theorem run_units (h : Plain pass) (level level' : Nat) (f : Formula) (s : σ) :
    pass.run level f.units s = pass.formula level' f s := by
  induction f generalizing level' s with
  | leaf n =>
      rw [Formula.units, run_append, Pass.formula, Instruction.blockOf]
      cases Length.ofInt? n with
      | none => exact h.run_op level _ .push s
      | some length =>
          simp only [run, instruction, h.resize level (level' + 1)]
          cases pass.resize (level' + 1) length s with
          | error e => rfl
          | ok t => exact h.run_op level _ .push t
  | binary operator left right ihleft ihright =>
      rw [Formula.units, run_append, run_append, ihleft (level' + 1), Pass.formula, h.number]
      show _ = (pass.formula (level' + 1) left s >>= _)
      cases pass.formula (level' + 1) left s with
      | error e => rfl
      | ok t =>
          show (pass.run level right.units t >>= _) = (pass.enter _ _ t >>= _)
          rw [ihright (level' + 1), h.number]
          show _ = (pass.formula (level' + 1) right t >>= _)
          cases pass.formula (level' + 1) right t with
          | error e => rfl
          | ok u => exact h.run_op level _ _ u
  | power base exponent ih =>
      rw [Formula.units, run_append, run_append, ih (level' + 1), Pass.formula, h.number]
      show _ = (pass.formula (level' + 1) base s >>= _)
      cases pass.formula (level' + 1) base s with
      | error e => rfl
      | ok t =>
          show (pass.run level (List.replicate (exponent - 1) (.op .duplicate)) t >>= _) = _
          rw [h.run_replicate level (level' + 1)]
          show _ = (pass.times (level' + 1) .duplicate (exponent - 1) t >>= _)
          cases pass.times (level' + 1) .duplicate (exponent - 1) t with
          | error e => rfl
          | ok u => exact h.run_replicate level _ _ _ u

end Plain

end Units

end Pass

end CodelCurve
