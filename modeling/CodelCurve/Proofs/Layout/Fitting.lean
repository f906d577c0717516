import CodelCurve.Layout.Fit
import CodelCurve.Proofs.Machine.Pass

/-! Trying curves of increasing order. The search ends with a program laid out on the first curve that has room, or
reports the last order of the range and the failure there after it has failed on every curve of the range. -/

namespace CodelCurve

theorem mapError_eq_ok {ε ε' α : Type} {f : ε → ε'} {x : Except ε α} {a : α} (h : x.mapError f = .ok a) :
    x = .ok a := by
  cases x with
  | error e => cases h
  | ok b =>
      cases h
      rfl

namespace Layout

theorem attempt_eq_ok {units : List Instruction} {order : Nat} {p : Program} (h : attempt units order = .ok p) :
    ∃ ts, Token.tokenize (Curve.generate order) = .ok ts ∧ pack units ts = .ok p := by
  obtain ⟨ts, htokens, hpack⟩ := bind_eq_ok h
  exact ⟨ts, htokens, mapError_eq_ok hpack⟩

theorem conclude_error_cons (orders : Orders) (units : List Instruction) (order : Nat) (e : LayoutError)
    {rest : List (Nat × Except LayoutError Program)} (hrest : rest ≠ []) :
    conclude orders units ((order, .error e) :: rest) = conclude orders units rest := by
  cases rest with
  | nil => exact absurd rfl hrest
  | cons outcome rest => rfl

/-- Trying one order after another ends with the first success, or with the last failure when all orders fail. -/
theorem conclude_attempts (orders : Orders) (units : List Instruction) (order count : Nat) :
    (∃ k < count, ∃ p, conclude orders units (attempts units order count) = .ok ⟨p, order + k⟩ ∧
      attempt units (order + k) = .ok p ∧ ∀ j < k, ∀ q, attempt units (order + j) ≠ .ok q) ∨
    ((∀ k < count, ∀ p, attempt units (order + k) ≠ .ok p) ∧
      ∃ last, conclude orders units (attempts units order count) = .error (.exhausted orders.last last) ∧
        (0 < count → attempt units (order + (count - 1)) = .error last)) := by
  induction count generalizing order with
  | zero => exact .inr ⟨fun k hk => absurd hk (Nat.not_lt_zero k), _, rfl, fun h => absurd h (Nat.lt_irrefl 0)⟩
  | succ count ih =>
      rw [attempts]
      cases hfirst : attempt units order with
      | ok p => exact .inl ⟨0, Nat.succ_pos count, p, rfl, hfirst, fun j hj => absurd hj (Nat.not_lt_zero j)⟩
      | error e =>
          -- The failure comes before what is found among the later orders.
          have hmore : ∀ k, (∀ j < k, ∀ q, attempt units (order + 1 + j) ≠ .ok q) →
              ∀ j < k + 1, ∀ q, attempt units (order + j) ≠ .ok q := by
            intro k hfail j hj q
            cases j with
            | zero =>
                rw [Nat.add_zero, hfirst]
                exact fun h => by cases h
            | succ j =>
                rw [Nat.add_comm j 1, ← Nat.add_assoc]
                exact hfail j (by omega) q
          obtain ⟨k, hk, p, hok, hattempt, hfail⟩ | ⟨hfail, last, herror, hlast⟩ := ih (order + 1)
          · have hne : attempts units (order + 1) count ≠ [] := by
              intro hnil
              rw [hnil] at hok
              cases hok
            rw [Nat.add_right_comm] at hok hattempt
            refine .inl ⟨k + 1, by omega, p, ?_, hattempt, hmore k hfail⟩
            exact (conclude_error_cons orders units order e hne).trans hok
          · refine .inr ⟨hmore count hfail, ?_⟩
            cases count with
            | zero => exact ⟨e, rfl, fun _ => hfirst⟩
            | succ count =>
                refine ⟨last, (conclude_error_cons orders units order e ?_).trans herror, fun _ => ?_⟩
                · rw [attempts]
                  split <;> simp
                · have hlater := hlast (Nat.succ_pos count)
                  rw [Nat.add_sub_cancel, Nat.add_right_comm, Nat.add_assoc] at hlater
                  exact hlater

/-- The search ends with the least order that has room, or with the failure of the last order when none has. -/
theorem fit_first_or_last (units : List Instruction) (orders : Orders) :
    (∃ f, fit units orders = .ok f ∧ attempt units f.order = .ok f.program ∧
      orders.first ≤ f.order ∧ f.order ≤ orders.last ∧
      ∀ order, orders.first ≤ order → order < f.order → ∀ p, attempt units order ≠ .ok p) ∨
    ((∀ order, orders.first ≤ order → order ≤ orders.last → ∀ p, attempt units order ≠ .ok p) ∧
      ∃ last, fit units orders = .error (.exhausted orders.last last) ∧
        (orders.first ≤ orders.last → attempt units orders.last = .error last)) := by
  obtain ⟨k, hk, p, hok, hattempt, hfail⟩ | ⟨hfail, last, herror, hlast⟩ :=
    conclude_attempts orders units orders.first (orders.last + 1 - orders.first)
  · refine .inl ⟨⟨p, orders.first + k⟩, hok, hattempt, Nat.le_add_right _ _, ?_, ?_⟩
    · show orders.first + k ≤ orders.last
      omega
    · intro order hfirst hless q
      have hless' : order < orders.first + k := hless
      have hearlier := hfail (order - orders.first) (by omega) q
      rwa [Nat.add_sub_cancel' hfirst] at hearlier
  · refine .inr ⟨?_, last, herror, ?_⟩
    · intro order hfirst hlast p
      have hnone := hfail (order - orders.first) (by omega) p
      rwa [Nat.add_sub_cancel' hfirst] at hnone
    · intro hrange
      have hend := hlast (by omega)
      rwa [show orders.first + (orders.last + 1 - orders.first - 1) = orders.last by omega] at hend

theorem fit_cases (units : List Instruction) (orders : Orders) :
    (∃ f, fit units orders = .ok f ∧ attempt units f.order = .ok f.program) ∨
      ((∃ last, fit units orders = .error (.exhausted orders.last last)) ∧
        ∀ order, orders.first ≤ order → order ≤ orders.last → ∀ p, attempt units order ≠ .ok p) := by
  obtain ⟨f, hfit, hattempt, _⟩ | ⟨hfail, last, hfit, _⟩ := fit_first_or_last units orders
  · exact .inl ⟨f, hfit, hattempt⟩
  · exact .inr ⟨⟨last, hfit⟩, hfail⟩

end Layout

end CodelCurve
