import CodelCurve.Proofs.Layout.Capacities
import CodelCurve.Proofs.Layout.Fitting
import CodelCurve.Proofs.Layout.Packing

/-! Which programs some curve has room for. A slot holds the longest front of the units that it can be completed
with, so a slot of 24 codels takes a primitive or a resize of any length but 23 with the primitive after it. Curves of
higher order have more such slots, and one for each unit is enough. No slot is longer, so a resize to 25 codels, which
has to share its slot with the unit after it, is placed on no curve. -/

namespace CodelCurve

namespace Layout

open Program (sizeOf_append sizeOf_cons sizeOf_singleton sizeOf_nonneg)

theorem sizeOf_le_of_prefix {front units : List Instruction} (hunits : ∀ u ∈ units, 0 ≤ u.size)
    (h : front <+: units) : Program.sizeOf front ≤ Program.sizeOf units := by
  obtain ⟨rest, rfl⟩ := h
  have hrest : 0 ≤ Program.sizeOf rest := sizeOf_nonneg fun u hu => hunits u (List.mem_append_right _ hu)
  rw [sizeOf_append]
  omega

/-! ### The longest front -/

namespace Slot

variable {capacity : Int} {units front : List Instruction}

theorem length_le_take (hunits : ∀ u ∈ units, 0 ≤ u.size) {held waiting : List Instruction} {free : Int}
    (h : Holds capacity units ⟨held, free, waiting⟩) (hfront : front <+: units)
    (hfits : Program.sizeOf front ≤ capacity) : front.length ≤ (take held free waiting).held.length := by
  induction waiting generalizing held free with
  | nil =>
      have horder : held.reverse ++ [] = units := h.order
      rw [← horder, List.append_nil] at hfront
      simpa [take] using hfront.length_le
  | cons unit waiting ih =>
      unfold take
      by_cases hunit : unit.size ≤ free
      · rw [if_pos hunit]
        exact ih (h.accept hunit)
      · rw [if_neg hunit]
        -- A longer front would have the next unit, which does not fit.
        refine Nat.le_of_not_lt fun hlong => ?_
        have hnext : held.reverse ++ [unit] <+: front := by
          have hunits' : held.reverse ++ [unit] <+: units := ⟨waiting, by simpa using h.order⟩
          exact List.prefix_of_prefix_length_le hunits' hfront (by simpa using Nat.succ_le_of_lt hlong)
        have hsize := sizeOf_le_of_prefix (fun u hu => hunits u (hfront.subset hu)) hnext
        have haccount : free + Program.sizeOf held.reverse = capacity := h.account
        rw [sizeOf_append, sizeOf_singleton] at hsize
        omega

theorem length_le_giveBack (hunits : ∀ u ∈ units, 0 ≤ u.size) {held waiting : List Instruction} {free : Int}
    {slot : Slot} (h : Holds capacity units ⟨held, free, waiting⟩) (hfront : front <+: units)
    (hfills : Fills capacity front) (hlength : front.length ≤ held.length)
    (hslot : giveBack held free waiting = some slot) : front.length ≤ slot.held.length := by
  induction held generalizing free waiting with
  | nil => exact Nat.le_trans hlength (Nat.zero_le _)
  | cons unit held ih =>
      unfold giveBack at hslot
      by_cases hback : (unit.isResize || decide (free = 1)) = true
      · rw [if_pos hback] at hslot
        have hsize : 0 ≤ unit.size := by
          apply hunits
          rw [← h.order]
          simp
        refine ih (h.release hsize) ?_ hslot
        -- What is given back does not fill the slot, so the front is another one.
        refine Nat.le_of_not_lt fun hlong => ?_
        have hwhole : front = (unit :: held).reverse := by
          have hheld : (unit :: held).reverse <+: units := ⟨waiting, h.order⟩
          apply (List.prefix_of_prefix_length_le hfront hheld (by simpa using hlength)).eq_of_length
          rw [List.length_reverse]
          exact Nat.le_antisymm hlength hlong
        have hresize := hfills.last unit (by simp [hwhole])
        have hfree := hfills.free
        have haccount : free + Program.sizeOf (unit :: held).reverse = capacity := h.account
        rw [hresize, Bool.false_or, decide_eq_true_eq] at hback
        rw [hwhole] at hfree
        omega
      · rw [if_neg hback] at hslot
        cases hslot
        exact hlength

/-- No front of the units that fills a slot is longer than what the slot holds. -/
theorem length_le_of_fills {slot : Slot} (hunits : ∀ u ∈ units, 0 ≤ u.size) (hcapacity : 0 ≤ capacity)
    (hslot : pack? capacity units = some slot) (hfront : front <+: units) (hfills : Fills capacity front) :
    front.length + slot.waiting.length ≤ units.length := by
  have hstart : Holds capacity units ⟨[], capacity, units⟩ := ⟨rfl, Int.add_zero _, id⟩
  have hlength := length_le_giveBack hunits hstart.take hfront hfills
    (length_le_take hunits hstart hfront (hfills.fits hcapacity)) hslot
  have horder := (hstart.take.giveBack hunits hslot).1.order
  rw [← horder, List.length_append, List.length_reverse]
  omega

theorem exists_giveBack (hcapacity : capacity ≠ 1) {held waiting : List Instruction} {free : Int}
    (haccount : free + Program.sizeOf held.reverse = capacity) : ∃ slot, giveBack held free waiting = some slot := by
  induction held generalizing free waiting with
  | nil =>
      have hfree : free = capacity := (Int.add_zero free).symm.trans haccount
      exact ⟨_, if_neg (hfree ▸ hcapacity)⟩
  | cons unit held ih =>
      unfold giveBack
      by_cases hback : (unit.isResize || decide (free = 1)) = true
      · rw [if_pos hback]
        apply ih
        rw [List.reverse_cons, sizeOf_append, sizeOf_singleton] at haccount
        omega
      · exact ⟨_, if_neg hback⟩

theorem exists_pack (hcapacity : capacity ≠ 1) (units : List Instruction) :
    ∃ slot, pack? capacity units = some slot := by
  have hstart : Holds capacity units ⟨[], capacity, units⟩ := ⟨rfl, Int.add_zero _, id⟩
  exact exists_giveBack hcapacity hstart.take.account

end Slot

/-! ### Whole paths -/

/-- Packing does not fail before the end of a path without slots of a single codel. -/
theorem Packing.exists_tokens (path : List Token) {ts : List Token}
    (hts : ∀ capacity, .slot capacity ∈ ts → capacity ≠ 1) (p : Packing) : ∃ q, tokens path ts p = .ok q := by
  induction ts generalizing p with
  | nil => exact ⟨p, rfl⟩
  | cons t rest ih =>
      have hrest : ∀ capacity, .slot capacity ∈ rest → capacity ≠ 1 :=
        fun capacity h => hts capacity (List.mem_cons_of_mem _ h)
      cases t with
      | start => exact ih hrest p
      | turn turn => exact ih hrest ⟨.uTurn turn :: p.placed, p.waiting⟩
      | slot capacity =>
          obtain ⟨slot, hslot⟩ := Slot.exists_pack (hts capacity List.mem_cons_self) p.waiting
          obtain ⟨q, hq⟩ := ih hrest ⟨slot.contents ++ p.placed, slot.waiting⟩
          refine ⟨q, ?_⟩
          rw [tokens, token, hslot]
          exact hq

theorem pack_of_tokens {units : List Instruction} {path : List Token} {q : Packing}
    (h : Packing.tokens path path ⟨[], units⟩ = .ok q) :
    pack units path = if q.waiting.isEmpty then .ok ⟨q.placed.reverse⟩
      else .error (.notEnoughSpace q.waiting.length (Token.texts path) (Token.texts path)) := by
  rw [pack, h]
  rfl

theorem attempt_of_tokenize {units : List Instruction} {order : Nat} {ts : List Token}
    (h : Token.tokenize (Curve.generate order) = .ok ts) :
    attempt units order = (pack units ts).mapError (LayoutError.onPath (String.ofList (Curve.generate order))) := by
  rw [attempt, h]
  rfl

/-! ### Programs that have room -/

/-- Primitives and resizes that a slot of 24 codels can take from any of them on: each resize has a primitive after it,
and the two leave none or at least two of the codels. -/
def Placeable : List Instruction → Prop
  | [] => True
  | .op o :: rest => o ≠ .init ∧ Placeable rest
  | .resize length :: rest =>
    length.codels ≤ 24 ∧ length.codels ≠ 23 ∧ (∃ o after, rest = .op o :: after) ∧ Placeable rest
  | _ :: _ => False

namespace Placeable

variable {units : List Instruction}

theorem tail {u : Instruction} (h : Placeable (u :: units)) : Placeable units := by
  cases u with
  | op o => exact h.2
  | resize length => exact h.2.2.2
  | uTurn turn => exact h.elim
  | noOp length => exact h.elim
  | number f => exact h.elim

theorem of_append {front : List Instruction} (h : Placeable (front ++ units)) : Placeable units := by
  induction front with
  | nil => exact h
  | cons u front ih => exact ih h.tail

theorem one_le_size (h : Placeable units) : ∀ u ∈ units, 1 ≤ u.size := by
  induction units with
  | nil => exact fun u hu => absurd hu List.not_mem_nil
  | cons v units ih =>
      intro u hu
      rcases List.mem_cons.mp hu with rfl | hu
      · cases u with
        | op o => exact Int.le_refl 1
        | resize length =>
            have htwo := length.two_le
            show 1 ≤ (length.codels : Int) - 1
            omega
        | uTurn turn => exact h.elim
        | noOp length => exact h.elim
        | number f => exact h.elim
      · exact ih h.tail u hu

/-- The first unit, with the next one if it is a resize, fills a slot of 24 codels. -/
theorem exists_fills (h : Placeable units) (hunits : units ≠ []) :
    ∃ front, front ≠ [] ∧ front <+: units ∧ Fills 24 front := by
  cases units with
  | nil => exact absurd rfl hunits
  | cons u rest =>
      cases u with
      | op o =>
          refine ⟨[.op o], by simp, ⟨rest, rfl⟩, ?_⟩
          constructor <;> simp [sizeOf_singleton, Instruction.isResize, Instruction.size]
      | resize length =>
          obtain ⟨hlength, hone, ⟨o, after, rfl⟩, _⟩ := h
          refine ⟨[.resize length, .op o], by simp, ⟨after, rfl⟩, ?_⟩
          have hsize : Program.sizeOf [.resize length, .op o] = length.codels := by
            rw [sizeOf_cons, sizeOf_singleton]
            show (length.codels : Int) - 1 + 1 = length.codels
            omega
          constructor
          · simp [Instruction.isResize]
          · omega
          · omega
      | uTurn turn => exact h.elim
      | noOp length => exact h.elim
      | number f => exact h.elim

theorem length_waiting_le (h : Placeable units) {slot : Slot} (hslot : Slot.pack? 24 units = some slot) :
    slot.waiting.length ≤ units.length - 1 := by
  have hsizes : ∀ u ∈ units, 0 ≤ u.size := fun u hu => Int.le_of_lt (h.one_le_size u hu)
  by_cases hunits : units = []
  · subst hunits
    cases hslot
    exact Nat.le_refl 0
  · obtain ⟨front, hne, hfront, hfills⟩ := h.exists_fills hunits
    have hlength := Slot.length_le_of_fills hsizes (by decide) hslot hfront hfills
    have hpos := List.length_pos_iff.mpr hne
    omega

end Placeable

/-- Each slot of 24 codels takes at least one unit. -/
theorem Packing.length_waiting_le {path ts : List Token} (hts : ∀ capacity, .slot capacity ∈ ts → 0 ≤ capacity)
    {placed units : List Instruction} (hunits : Placeable units) {q : Packing}
    (h : tokens path ts ⟨placed, units⟩ = .ok q) : q.waiting.length ≤ units.length - ts.count (.slot 24) := by
  induction ts generalizing placed units with
  | nil =>
      cases h
      simp
  | cons t rest ih =>
      have hrest : ∀ capacity, .slot capacity ∈ rest → 0 ≤ capacity :=
        fun capacity h => hts capacity (List.mem_cons_of_mem _ h)
      obtain ⟨p, htoken, htokens⟩ := bind_eq_ok h
      cases t with
      | start =>
          cases htoken
          simpa [List.count_cons] using ih hrest hunits htokens
      | turn turn =>
          cases htoken
          simpa [List.count_cons] using ih hrest hunits htokens
      | slot capacity =>
          have hsizes : ∀ u ∈ units, 0 ≤ u.size := fun u hu => Int.le_of_lt (hunits.one_le_size u hu)
          have hcapacity := hts capacity List.mem_cons_self
          simp only [token] at htoken
          cases hslot : Slot.pack? capacity units with
          | none =>
              rw [hslot] at htoken
              cases htoken
          | some slot =>
              rw [hslot] at htoken
              cases htoken
              obtain ⟨front, horder, _, _⟩ := Slot.pack?_eq_some hsizes hslot
              have hleft : Placeable slot.waiting := Placeable.of_append (horder ▸ hunits)
              have hwaiting := ih hrest hleft htokens
              rw [List.count_cons]
              by_cases hwide : capacity = 24
              · subst hwide
                have hprogress := hunits.length_waiting_le hslot
                simp only [beq_self_eq_true, ↓reduceIte]
                omega
              · have hlength : units.length = front.length + slot.waiting.length := by
                  rw [horder, List.length_append]
                simp only [beq_iff_eq, Token.slot.injEq, hwide, ↓reduceIte]
                omega

/-- A curve has room when its order exceeds the number of units. -/
theorem exists_attempt {units : List Instruction} (hunits : Placeable units) {order : Nat}
    (horder : units.length < order) : ∃ p, attempt units order = .ok p := by
  obtain ⟨ts, htokens, hslots, hcount⟩ := Token.tokenize_generate_slots order
  obtain ⟨q, hq⟩ := Packing.exists_tokens ts (fun capacity h => by have := hslots capacity h; omega) ⟨[], units⟩
  have hwaiting := Packing.length_waiting_le (fun capacity h => by have := hslots capacity h; omega) hunits hq
  have hnone : q.waiting = [] := List.length_eq_zero_iff.mp (by omega)
  refine ⟨⟨q.placed.reverse⟩, ?_⟩
  rw [attempt_of_tokenize htokens, pack_of_tokens hq, hnone]
  rfl

/-! ### Resizes that are too long -/

theorem Fills.codels_le {capacity : Int} {front : List Instruction} (h : Fills capacity front)
    (hcapacity : 0 ≤ capacity) (hfront : ∀ u ∈ front, 1 ≤ u.size) {length : Length}
    (hlength : .resize length ∈ front) : (length.codels : Int) ≤ capacity := by
  obtain ⟨before, after, rfl⟩ := List.append_of_mem hlength
  -- A resize is not the last unit of a slot, and the next one takes at least a codel.
  cases after with
  | nil =>
      have hlast := h.last (.resize length) (by simp)
      cases hlast
  | cons next after =>
      have hsizes : ∀ u ∈ before ++ .resize length :: next :: after, 0 ≤ u.size :=
        fun u hu => Int.le_of_lt (hfront u hu)
      have hbefore : 0 ≤ Program.sizeOf before := sizeOf_nonneg fun u hu => hsizes u (by simp [hu])
      have hafter : 0 ≤ Program.sizeOf after := sizeOf_nonneg fun u hu => hsizes u (by simp [hu])
      have hnext : 1 ≤ next.size := hfront next (by simp)
      have hfits := h.fits hcapacity
      have hsize : (Instruction.resize length).size = length.codels - 1 := rfl
      rw [sizeOf_append, sizeOf_cons, sizeOf_cons, hsize] at hfits
      omega

theorem Packed.codels_le {ts : List Token} {units body : List Instruction} (h : Packed ts units body)
    (hts : ∀ capacity, .slot capacity ∈ ts → 0 ≤ capacity ∧ capacity ≤ 24) (hunits : ∀ u ∈ units, 1 ≤ u.size)
    {length : Length} (hlength : .resize length ∈ units) : length.codels ≤ 24 := by
  induction h with
  | nil => cases hlength
  | start _ ih => exact ih (fun capacity h => hts capacity (List.mem_cons_of_mem _ h)) hunits hlength
  | turn turn _ ih => exact ih (fun capacity h => hts capacity (List.mem_cons_of_mem _ h)) hunits hlength
  | slot hfills _ ih =>
      rcases List.mem_append.mp hlength with hlength | hlength
      · obtain ⟨hlow, hhigh⟩ := hts _ List.mem_cons_self
        have hcodels := hfills.codels_le hlow (fun u hu => hunits u (List.mem_append_left _ hu)) hlength
        omega
      · exact ih (fun capacity h => hts capacity (List.mem_cons_of_mem _ h))
          (fun u hu => hunits u (List.mem_append_right _ hu)) hlength

theorem attempt_eq_notEnoughSpace {units : List Instruction} (hunits : ∀ u ∈ units, 1 ≤ u.size) {length : Length}
    (hlength : .resize length ∈ units) (hlong : 25 ≤ length.codels) (order : Nat) :
    ∃ remaining path seen, attempt units order = .error (.notEnoughSpace remaining path seen) := by
  obtain ⟨ts, htokens, hslots, _⟩ := Token.tokenize_generate_slots order
  obtain ⟨q, hq⟩ := Packing.exists_tokens ts (fun capacity h => by have := hslots capacity h; omega) ⟨[], units⟩
  obtain ⟨front, body, horder, _, hpacked⟩ :=
    Packing.tokens_eq_ok (fun u hu => Int.le_of_lt (hunits u hu)) hq
  have hwaiting : q.waiting ≠ [] := by
    intro hnone
    rw [hnone, List.append_nil] at horder
    subst horder
    have hcodels := hpacked.codels_le (fun capacity h => by have := hslots capacity h; omega) hunits hlength
    omega
  refine ⟨q.waiting.length, String.ofList (Curve.generate order), Token.texts ts, ?_⟩
  rw [attempt_of_tokenize htokens, pack_of_tokens hq, if_neg (by simpa using hwaiting)]
  rfl

/-- Every list of primitives and resizes in which a primitive follows each resize, none to more than 24 codels or to
23, has room on all curves from some order on. A list with a resize to 25 or more codels has room on none, whatever else
is in it, as long as each takes up a codel, which all units do. -/
theorem attempt_escalates :
    (∀ units, Placeable units → ∃ least, ∀ order, least ≤ order → ∃ p, attempt units order = .ok p) ∧
    ∀ (units : List Instruction) (length : Length), (∀ u ∈ units, 1 ≤ u.size) → .resize length ∈ units →
      25 ≤ length.codels → ∀ order, ∃ remaining path seen,
        attempt units order = .error (.notEnoughSpace remaining path seen) := by
  refine ⟨fun units hunits => ⟨units.length + 1, fun order horder => exists_attempt hunits horder⟩, ?_⟩
  intro units length hunits hlength hlong order
  exact attempt_eq_notEnoughSpace hunits hlength hlong order

/-- A push of 24 has room on some curve, a push of 25 on none. -/
theorem attempt_escalates_up_to_24 :
    Placeable [.resize ⟨24, by decide⟩, .op .push] ∧
    (∃ least, ∀ order, least ≤ order → ∃ p, attempt [.resize ⟨24, by decide⟩, .op .push] order = .ok p) ∧
    ∀ order, ∃ remaining path seen,
      attempt [.resize ⟨25, by decide⟩, .op .push] order = .error (.notEnoughSpace remaining path seen) := by
  have hplaceable : Placeable [.resize ⟨24, by decide⟩, .op .push] := by
    simp [Placeable]
  refine ⟨hplaceable, attempt_escalates.1 _ hplaceable, ?_⟩
  exact attempt_escalates.2 _ ⟨25, by decide⟩ (by decide) (by simp) (by decide)

end Layout

end CodelCurve
