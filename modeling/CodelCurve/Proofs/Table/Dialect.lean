import CodelCurve.Proofs.Table.Format
import CodelCurve.Table.Dialect

/-! The library in use keeps what is relied on: its dialects find formulas and tables by names, its packed format writes
the shortest form of a value and reads any, and its JSON format writes a text of a value and reads any. -/

namespace CodelCurve

namespace Dialect

variable (d : Dialect)

theorem operator?_title (operator : Operator) : d.operator? (.text operator.title) = some operator := by
  cases operator <;> rfl

theorem parts?_binary (room : Nat) (operator left right : Datum) :
    d.parts? room Formula.binaryParts
      (.map [(.text "operator", operator), (.text "left", left), (.text "right", right)])
      = some [operator, left, right] := by
  obtain ⟨compact, _, _⟩ := d
  cases compact <;> rfl

theorem parts?_power (room : Nat) (base exponent : Datum) :
    d.parts? room Formula.powerParts (.map [(.text "base", base), (.text "exponent", exponent)])
      = some [base, exponent] := by
  obtain ⟨compact, _, _⟩ := d
  cases compact <;> rfl

theorem exponent?_nat {n : Nat} (h : n < 2 ^ 32) : exponent? (.nat n) = some n := by
  have hrange : 0 ≤ (n : Int) ∧ (n : Int) < 0x100000000 := ⟨Int.natCast_nonneg n, by omega⟩
  rw [exponent?, Datum.int?, Option.bind_eq_bind, Option.bind_some, if_pos hrange, Int.toNat_natCast]

theorem formula?_leaf (room : Nat) {n : Int} (hn : Word.Fits n) :
    d.formula? room (.map [(.text "Leaf", .ofInt n)]) = if d.head ≤ room then some (.leaf n) else none := by
  have hplace : d.place? Formula.kinds (.text "Leaf") = some (some 0) := rfl
  have hread : Word.check n = some n := Word.check_eq_some_iff.mpr ⟨hn, rfl⟩
  rw [formula?, hplace]
  by_cases hroom : d.head ≤ room
  · simp [hroom, Nat.not_lt.mpr hroom, Datum.int?_ofInt, hread]
  · simp [hroom, Nat.not_le.mp hroom]

theorem formula?_parts (room : Nat) {k : Datum} {place : Nat}
    (hplace : d.place? Formula.kinds k = some (some (place + 1))) (v : Datum) :
    d.formula? room (.map [(k, v)]) = if d.head < room
      then d.ofParts (room - (d.head + 1)) (d.formula? (room - (d.head + 1))) v (some (place + 1)) else none := by
  rw [formula?, hplace]
  simp only [Option.bind_eq_bind, Option.bind_some]
  split_ifs with hlow hroom
  · omega
  · rfl
  · split
    · omega
    next inner hinner =>
      obtain rfl : inner = room - (d.head + 1) := by omega
      rfl
  · split
    · rfl
    · omega

theorem ofParts_binary (inner : Nat) (read : Datum → Option Formula) (operator : Operator) (left right : Datum) :
    d.ofParts inner read (.map [(.text "operator", .text operator.title), (.text "left", left), (.text "right", right)])
      (some 1) = do return .binary operator (← read left) (← read right) := by
  simp only [ofParts, parts?_binary, operator?_title, Option.bind_eq_bind, Option.bind_some]

theorem ofParts_power (inner : Nat) (read : Datum → Option Formula) (base : Datum) {exponent : Nat}
    (h : exponent < 2 ^ 32) :
    d.ofParts inner read (.map [(.text "base", base), (.text "exponent", .nat exponent)]) (some 2)
      = do return .power (← read base) exponent := by
  simp only [ofParts, parts?_power, exponent?_nat h, Option.bind_eq_bind, Option.bind_some]

theorem entry?_ofInt (room : Nat) {key : Int} (hkey : Word.Fits key) (v : Datum) :
    d.entry? room (.ofInt key, v) = (d.formula? room v).map fun f => (key, f) := by
  have hread : Word.check key = some key := Word.check_eq_some_iff.mpr ⟨hkey, rfl⟩
  simp only [ entry?, Datum.int?_ofInt, hread, Option.bind_eq_bind, Option.bind_some]
  cases d.formula? room v <;> rfl

theorem mapM_entry? (room : Nat) {entries : List (Int × Datum)} (hkeys : ∀ e ∈ entries, Word.Fits e.1) :
    (entries.map fun e => (Datum.ofInt e.1, e.2)).mapM (d.entry? room) =
      entries.mapM fun e => (d.formula? room e.2).map fun g => (e.1, g) := by
  induction entries with
  | nil => rfl
  | cons e rest ih =>
      obtain ⟨hkey, hrest⟩ := List.forall_mem_cons.mp hkeys
      rw [List.map_cons, List.mapM_cons, List.mapM_cons, entry?_ofInt d room hkey, ih hrest]

theorem table?_map {entries : List (Int × Datum)} (hkeys : ∀ e ∈ entries, Word.Fits e.1) :
    d.table? (.map (entries.map fun e => (.ofInt e.1, e.2))) =
      if 0 < d.limit then do
        let found ← entries.mapM fun e => (d.formula? (d.limit - 1) e.2).map fun g => (e.1, g)
        return found.foldl (fun t e => t.put e.1 e.2) .empty
      else none := by
  rw [table?, mapM_entry? d _ hkeys]
  by_cases hlimit : d.limit = 0
  · rw [if_pos hlimit, if_neg (by omega)]
    rfl
  · rw [if_neg hlimit, if_pos (by omega)]

/-- A dialect finds formulas and tables by names. -/
theorem finds_format (write : Datum → Except String (List UInt8)) (parse : List UInt8 → Option Datum) :
    (d.format write parse).Finds d.head where
  leaf := fun room _ hn => d.formula?_leaf room hn
  binary := by
    intro room operator left right
    have hplace : d.place? Formula.kinds (.text "Binary") = some (some 1) := rfl
    refine (d.formula?_parts room hplace _).trans ?_
    rw [ofParts_binary]
    rfl
  power := by
    intro room base exponent hexponent
    have hplace : d.place? Formula.kinds (.text "Power") = some (some 2) := rfl
    refine (d.formula?_parts room hplace _).trans ?_
    rw [ofParts_power d _ _ _ hexponent]
    rfl
  table := fun _ hkeys => d.table?_map hkeys

end Dialect

namespace Library

theorem finds_packed_standard : standard.packed.Finds 0 := Dialect.finds_format .packed _ _

theorem finds_json_standard : standard.json.Finds 1 := Dialect.finds_format .json _ _

theorem readsPacked_standard : standard.packed.ReadsPacked := fun _ _ h z => Packed.decode_of_form h z

theorem readsJson_standard : standard.json.ReadsJson := fun _ _ h => Json.parse_of_isText h

theorem writesJson_standard : standard.json.WritesJson := by
  intro d hd
  refine ⟨(Json.text d).toList, ?_, Json.isText_text hd⟩
  rw [String.ofList_toList]
  rfl

end Library

end CodelCurve
