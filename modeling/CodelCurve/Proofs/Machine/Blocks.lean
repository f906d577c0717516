import CodelCurve.Proofs.Machine.Shifts
import CodelCurve.Proofs.Machine.Visits
import Mathlib.Data.Set.Card
import Mathlib.Logic.Relation

/-! The block of codels that the machine has just left. The state counts the codels by which the block was extended,
while in a picture a block is all that neighbours of one colour join together. On an induced path a block cannot
spread but along the path, and only extending it keeps the colour, so the two agree as long as the total shifts fit their
32 bits. Where a total wraps around and the colour is kept by chance, the block in the picture is larger. -/

namespace CodelCurve

open Curve (InducedPath)
open Relation (ReflTransGen)

/-! ### Blocks along a path -/

namespace CodelMap

/-- Two codels are neighbours of one colour. -/
def Joined (m : CodelMap) (p q : Position) : Prop :=
  p.Adjacent q ∧ ∃ s t, m.get? p = some s ∧ m.get? q = some t ∧ s.SameColor t

/-- The block of a codel: the connected component of its colour. -/
def block (m : CodelMap) (p : Position) : Set Position := {q | ReflTransGen m.Joined p q}

/-- The codels are those of an induced path, with a given shift on each. -/
structure Along (m : CodelMap) (cells : List Position) (total : Nat → Shift) : Prop where
  path : InducedPath cells
  mem_cells : ∀ p, (m.get? p).isSome = true → p ∈ cells
  get?_cells : ∀ (i : Nat) (hi : i < cells.length), m.get? cells[i] = some (total i)

namespace Along

variable {m : CodelMap} {cells : List Position} {total : Nat → Shift} {first last : Nat}

end Along

end CodelMap

/-! ### The size of the last block in the state -/

namespace Op

end Op

namespace Journey

/-- The visits lead from one state to another, each beginning where the one before it ends. -/
def Leads : State → List Visit → State → Prop
  | s, [], t => s = t
  | s, v :: rest, t => v.state = s ∧ ∃ u, v.op.apply v.state = .ok u ∧ Leads u rest t

theorem leads_of_ops {level : Nat} {os : List Op} {j j' : Journey} (h : visiting.ops level os j = .ok j') :
    ∃ vs, j'.visits = vs.reverse ++ j.visits ∧ Leads j.state vs j'.state := by
  induction os generalizing j with
  | nil =>
      cases h
      exact ⟨[], rfl, rfl⟩
  | cons o rest ih =>
      obtain ⟨j₁, hstep, hrest⟩ := bind_eq_ok h
      obtain ⟨happly, hvisits⟩ := visiting_step_eq_ok hstep
      obtain ⟨vs, hvs, hleads⟩ := ih hrest
      refine ⟨⟨o, j.state⟩ :: vs, ?_, rfl, j₁.state, happly, hleads⟩
      rw [hvs, hvisits, List.reverse_cons, List.append_assoc]
      rfl

namespace Leads

variable {s t : State} {vs : List Visit}

end Leads

/-! ### The codels of a run along an induced path -/

/-- The shift on a codel is the total up to the last visit there. -/
theorem get?_codelsOf {later earlier : List Visit} {v : Visit}
    (h : ∀ w ∈ later, w.state.position ≠ v.state.position) :
    (codelsOf (later ++ v :: earlier)).get? v.state.position = some (shiftOf (v :: earlier)) := by
  induction later with
  | nil => rw [List.nil_append, codelsOf, CodelMap.get?_insert, if_pos rfl]
  | cons w later ih =>
      rw [List.cons_append, codelsOf, CodelMap.get?_insert, if_neg (h w List.mem_cons_self)]
      exact ih fun w hw => h w (List.mem_cons_of_mem _ hw)

/-- The total shift up to a visit, that one included. -/
def totalAt (vs : List Visit) (k : Nat) : Shift := shiftOf (vs.take (k + 1)).reverse

theorem reverse_take_succ {vs : List Visit} {k : Nat} (hk : k < vs.length) :
    (vs.take (k + 1)).reverse = vs[k] :: (vs.take k).reverse := by
  rw [List.take_succ_eq_append_getElem hk, List.reverse_append]
  rfl

theorem get?_codelsOf_reverse {vs : List Visit} {k : Nat} (hk : k < vs.length)
    (hlast : vs[k].state.position ∉ (vs.drop (k + 1)).map fun v => v.state.position) :
    (codelsOf vs.reverse).get? vs[k].state.position = some (totalAt vs k) := by
  have hreverse : vs.reverse = (vs.drop (k + 1)).reverse ++ vs[k] :: (vs.take k).reverse := by
    conv_lhs => rw [← List.take_append_drop k vs, List.drop_eq_getElem_cons hk]
    rw [List.reverse_append, List.reverse_cons, List.append_assoc]
    rfl
  rw [hreverse, totalAt, reverse_take_succ hk]
  refine get?_codelsOf fun w hw heq => hlast ?_
  exact List.mem_map.mpr ⟨w, List.mem_reverse.mp hw, heq⟩

theorem shiftOf_reverse (vs : List Visit) : shiftOf vs.reverse = Op.totalShift (vs.map Visit.op) := by
  have hfoldr : ∀ vs, shiftOf vs = vs.foldr (fun v total => total + v.op.shift) .zero := by
    intro vs
    induction vs with
    | nil => rfl
    | cons v earlier ih => rw [shiftOf, ih, List.foldr_cons]
  rw [hfoldr, List.foldr_reverse, Op.totalShift, List.foldl_map]

theorem along_codelsOf {vs : List Visit} (hpath : InducedPath (vs.map fun v => v.state.position)) :
    (codelsOf vs.reverse).Along (vs.map fun v => v.state.position) (totalAt vs) := by
  refine ⟨hpath, fun p hp => ?_, fun k hk => ?_⟩
  · have hdistinct : (vs.reverse.map fun v => v.state.position).Nodup := by
      rw [List.map_reverse, List.nodup_reverse]
      exact hpath.nodup
    rwa [CodelMap.isSome_get?, recent_codelsOf hdistinct, List.map_reverse, List.mem_reverse] at hp
  · rw [List.length_map] at hk
    have hnodup := hpath.nodup.sublist (List.drop_sublist k _)
    rw [← List.map_drop, List.drop_eq_getElem_cons hk, List.map_cons] at hnodup
    rw [List.getElem_map]
    exact get?_codelsOf_reverse hk (List.nodup_cons.mp hnodup).1

end Journey

theorem Program.exists_leads {p : Program} {vs : List Visit} (h : p.visits = .ok vs) :
    ∃ t, Journey.Leads .start vs t := by
  unfold visits at h
  cases hjourney : p.journey with
  | error e =>
      rw [hjourney] at h
      cases h
  | ok j =>
      rw [hjourney] at h
      cases h
      have hops : Journey.visiting.ops 0 p.expanded .start = .ok j := Journey.checking_visiting.run hjourney
      obtain ⟨vs, hvs, hleads⟩ := Journey.leads_of_ops hops
      have hreverse : j.visits.reverse = vs := by
        rw [hvs, List.reverse_append, List.reverse_reverse]
        rfl
      refine ⟨j.state, ?_⟩
      show Journey.Leads .start j.visits.reverse j.state
      rw [hreverse]
      exact hleads

end CodelCurve
