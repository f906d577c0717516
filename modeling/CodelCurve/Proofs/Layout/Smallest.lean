import CodelCurve.Proofs.Layout.Exactness

/-! The smallest curve that has room. Every curve can be read and has no slot of a single codel, so units can fail to be
laid out on it for want of space only. Where they have room they fill the curve to its last cell, with fillers and
U-turns. The search over a range of orders finds the least that has room, or reports what was left over on the last. -/

namespace CodelCurve

namespace Layout

open Program (sizeOf_append sizeOf_cons)

theorem size_uTurn (t : Turn) : (Instruction.uTurn t).size = (Token.turn t).cells.length := by
  cases t <;> rfl

/-- A packed program takes up the cells of its segments. -/
theorem Packed.sizeOf_body {ts : List Token} {units body : List Instruction} (h : Packed ts units body)
    (hts : ∀ t ∈ ts, t.Ordinary) : Program.sizeOf body = (ts.flatMap Token.cells).length := by
  induction h with
  | nil => rfl
  | start _ _ => exact (hts _ List.mem_cons_self).elim
  | turn t _ ih =>
      have hrest := ih fun u hu => hts u (List.mem_cons_of_mem _ hu)
      rw [sizeOf_cons, size_uTurn, hrest, List.flatMap_cons, List.length_append, Int.natCast_add]
  | @slot ts units body front capacity hfills _ ih =>
      have hrest := ih fun u hu => hts u (List.mem_cons_of_mem _ hu)
      have hcapacity : 2 ≤ capacity := (hts _ List.mem_cons_self).1
      have hfits := hfills.fits (by omega)
      have hcells : (Token.slot capacity).cells.length = capacity.toNat := List.length_replicate
      rw [sizeOf_append, sizeOf_append, sizeOf_filling (by omega) hfills.free, hrest, List.flatMap_cons,
        List.length_append, hcells]
      omega

theorem size_of_attempt {units : List Instruction} (hunits : ∀ u ∈ units, 0 ≤ u.size) {n : Nat} {p : Program}
    (h : attempt units (n + 1) = .ok p) : p.size = (Curve.generate (n + 1)).length := by
  obtain ⟨ts, htokens, hpack⟩ := attempt_eq_ok h
  obtain ⟨rest, hrest, hcells, hordinary⟩ := Token.tokenize_generate_succ n
  rw [htokens] at hrest
  cases hrest
  cases packed_of_pack hunits hpack with
  | start hpacked =>
      -- The first cell of the curve is the codel that every program begins with.
      rw [Program.size, hpacked.sizeOf_body hordinary, ← hcells, List.flatMap_cons, List.length_append]
      rfl

/-- Units that are not laid out on a curve are left over at its end, some or all of them. -/
theorem attempt_error_eq {units : List Instruction} (hunits : ∀ u ∈ units, 0 ≤ u.size) {order : Nat} {e : LayoutError}
    (h : attempt units order = .error e) :
    ∃ remaining ts, Token.tokenize (Curve.generate order) = .ok ts ∧
      e = .notEnoughSpace remaining (String.ofList (Curve.generate order)) (Token.texts ts) ∧
      1 ≤ remaining ∧ remaining ≤ units.length := by
  obtain ⟨ts, htokens, hslots, _⟩ := Token.tokenize_generate_slots order
  have hwide : ∀ capacity, .slot capacity ∈ ts → 2 ≤ capacity := by
    intro capacity hcapacity
    have hseven := (hslots capacity hcapacity).1
    omega
  obtain ⟨placed, left, body, hleft, _, hpacking⟩ := Packing.exists_laidOut ts hwide hunits []
  rw [attempt_of_tokenize htokens, pack_of_tokens hpacking] at h
  split at h
  · cases h
  · rename_i hsome
    cases h
    refine ⟨left.length, ts, htokens, rfl, ?_, ?_⟩
    · exact List.length_pos_iff.mpr (by simpa using hsome)
    · rw [hleft, List.length_append]
      omega

/-- Units of positive size are fitted exactly when some curve of the range has room for them. They are then on the
smallest of these curves and take up all of it. Otherwise the failure on the last curve is reported, which tells how
many of them are left over; an unreadable curve and a slot that cannot be filled are never met. -/
theorem fit_finds_smallest {units : List Instruction} (hunits : ∀ u ∈ units, 0 < u.size) {orders : Orders}
    (hfirst : 1 ≤ orders.first) (hrange : orders.first ≤ orders.last) :
    ((∃ f, fit units orders = .ok f) ↔
      ∃ order, orders.first ≤ order ∧ order ≤ orders.last ∧ ∃ p, attempt units order = .ok p) ∧
    (∀ f, fit units orders = .ok f →
      orders.first ≤ f.order ∧ f.order ≤ orders.last ∧ attempt units f.order = .ok f.program ∧
      (∀ order, orders.first ≤ order → (∃ p, attempt units order = .ok p) → f.order ≤ order) ∧
      f.program.size = (Curve.generate f.order).length) ∧
    (∀ e, fit units orders = .error e →
      ∃ remaining ts, Token.tokenize (Curve.generate orders.last) = .ok ts ∧
        e = .exhausted orders.last
          (.notEnoughSpace remaining (String.ofList (Curve.generate orders.last)) (Token.texts ts)) ∧
        1 ≤ remaining ∧ remaining ≤ units.length) ∧
    ∀ order path seen, attempt units order ≠ .error (.unresolvedTurns path seen) ∧
      attempt units order ≠ .error (.singleForward path seen) := by
  have hsizes : ∀ u ∈ units, 0 ≤ u.size := fun u hu => Int.le_of_lt (hunits u hu)
  have hfailures : ∀ order path seen, attempt units order ≠ .error (.unresolvedTurns path seen) ∧
      attempt units order ≠ .error (.singleForward path seen) := by
    intro order path seen
    constructor <;> intro hattempt <;> obtain ⟨_, _, _, he, _⟩ := attempt_error_eq hsizes hattempt <;> cases he
  obtain ⟨f, hfit, hattempt, hlow, hhigh, hearlier⟩ | ⟨hfail, last, hfit, hlast⟩ := fit_first_or_last units orders
  · refine ⟨⟨fun _ => ⟨f.order, hlow, hhigh, _, hattempt⟩, fun _ => ⟨f, hfit⟩⟩, ?_, ?_, hfailures⟩
    · intro g hg
      obtain rfl : f = g := Except.ok.inj (hfit.symm.trans hg)
      refine ⟨hlow, hhigh, hattempt, ?_, ?_⟩
      · rintro order horder ⟨p, hp⟩
        exact Nat.le_of_not_lt fun hless => hearlier order horder hless p hp
      · obtain ⟨n, hn⟩ : ∃ n, f.order = n + 1 := ⟨f.order - 1, by omega⟩
        rw [hn] at hattempt ⊢
        exact size_of_attempt hsizes hattempt
    · intro e he
      rw [hfit] at he
      cases he
  · refine ⟨⟨?_, ?_⟩, ?_, ?_, hfailures⟩
    · rintro ⟨f, hf⟩
      rw [hfit] at hf
      cases hf
    · rintro ⟨order, hlow, hhigh, p, hp⟩
      exact absurd hp (hfail order hlow hhigh p)
    · intro f hf
      rw [hfit] at hf
      cases hf
    · intro e he
      obtain rfl : _ = e := Except.error.inj (hfit.symm.trans he)
      obtain ⟨remaining, ts, htokens, rfl, hpos, hle⟩ := attempt_error_eq hsizes (hlast hrange)
      exact ⟨remaining, ts, htokens, rfl, hpos, hle⟩

/-- Two primitives are fitted on one of the first three curves and take up all of it. A push of 25 is fitted on none,
and at most two units are told to be left over. -/
theorem fit_finds_smallest_or_none :
    (∃ f, fit [.op .push, .op .outNumber] ⟨1, 3⟩ = .ok f ∧ f.program.size = (Curve.generate f.order).length) ∧
    ∃ remaining path seen, fit [.resize ⟨25, by decide⟩, .op .push] ⟨1, 3⟩ =
      .error (.exhausted 3 (.notEnoughSpace remaining path seen)) ∧ 1 ≤ remaining ∧ remaining ≤ 2 := by
  obtain ⟨hiff, hfound, _, _⟩ :=
    @fit_finds_smallest [.op .push, .op .outNumber] (by decide) ⟨1, 3⟩ (by decide) (by decide)
  obtain ⟨hiff', _, hnone, _⟩ :=
    @fit_finds_smallest [.resize ⟨25, by decide⟩, .op .push] (by decide) ⟨1, 3⟩ (by decide) (by decide)
  constructor
  · have hroom : ∃ p, attempt [.op .push, .op .outNumber] 3 = .ok p := exists_attempt (by simp [Placeable]) (by decide)
    obtain ⟨f, hf⟩ := hiff.mpr ⟨3, by decide, by decide, hroom⟩
    exact ⟨f, hf, (hfound f hf).2.2.2.2⟩
  · cases hfit : fit [.resize ⟨25, by decide⟩, .op .push] ⟨1, 3⟩ with
    | ok f =>
        obtain ⟨order, _, _, p, hp⟩ := hiff'.mp ⟨f, hfit⟩
        obtain ⟨remaining, path, seen, hshort⟩ :=
          @attempt_eq_notEnoughSpace [.resize ⟨25, by decide⟩, .op .push] (by decide) ⟨25, by decide⟩ (by simp)
            (by decide) order
        rw [hp] at hshort
        cases hshort
    | error e =>
        obtain ⟨remaining, ts, _, rfl, hpos, hle⟩ := hnone e hfit
        exact ⟨remaining, _, _, rfl, hpos, hle⟩

end Layout

end CodelCurve
