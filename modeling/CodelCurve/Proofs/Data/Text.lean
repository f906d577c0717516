import CodelCurve.Data.Datum
import CodelCurve.Text.Digits
import Mathlib.Data.List.Basic
import Mathlib.Tactic.IntervalCases

/-! The bytes of a text and the digits of a number. Each character of plain ASCII is one byte of its text; the digits of a
number stand for the number, and only zero begins with the digit zero. -/

namespace CodelCurve

/-! ### Bytes -/

theorem toList_byteArray (bytes : ByteArray) : bytes.toList = bytes.data.toList := by
  have hloop : ∀ (n i : Nat) (read : List UInt8), bytes.size - i = n →
      ByteArray.toList.loop bytes i read = read.reverse ++ bytes.data.toList.drop i := by
    intro n
    induction n with
    | zero =>
        intro i read hn
        have hend : ¬ i < bytes.size := by omega
        rw [ByteArray.toList.loop, if_neg hend, List.drop_eq_nil_of_le, List.append_nil]
        simpa using Nat.le_of_not_lt hend
    | succ n ih =>
        intro i read hn
        have hlt : i < bytes.size := by omega
        have hlength : i < bytes.data.toList.length := hlt
        rw [ByteArray.toList.loop, if_pos hlt, ih (i + 1) _ (by omega), List.drop_eq_getElem_cons hlength]
        have hget : bytes.get! i = bytes.data.toList[i] := getElem!_pos bytes.data i hlt
        rw [List.reverse_cons, List.append_assoc, List.singleton_append, hget]
  exact hloop _ 0 [] rfl

theorem Datum.ofBytes_toUTF8 (s : String) : Datum.ofBytes s.toUTF8.toList = .text s := by
  rw [toList_byteArray, ofBytes]
  have hbytes : ByteArray.mk s.toUTF8.data.toList.toArray = s.toUTF8 := rfl
  have hread : String.fromUTF8? s.toUTF8 = some s := dif_pos s.isValidUTF8
  rw [hbytes, hread]

theorem toList_toUTF8_ofList {cs : List Char} (h : ∀ c ∈ cs, c.toNat < 0x80) :
    (String.ofList cs).toUTF8.toList = cs.map fun c => UInt8.ofNat c.toNat := by
  rw [toList_byteArray, String.toUTF8_eq_toByteArray, String.toByteArray_ofList, List.utf8Encode,
    List.toList_data_toByteArray, List.map_eq_flatMap]
  apply List.flatMap_congr
  intro c hc
  have hsize : c.utf8Size = 1 := Char.utf8Size_eq_one_iff.mpr (UInt32.le_iff_toNat_le.mpr (Nat.le_of_lt_succ (h c hc)))
  rw [String.utf8EncodeChar_eq_singleton hsize]
  rfl

/-- A text of plain ASCII has the bytes of its characters. -/
theorem map_char_toUTF8 {cs : List Char} (h : ∀ c ∈ cs, c.toNat < 0x80) :
    ((String.ofList cs).toUTF8.toList.map fun b => Char.ofNat b.toNat) = cs := by
  rw [toList_toUTF8_ofList h, List.map_map]
  refine (List.map_congr_left ?_).trans (List.map_id cs)
  intro c hc
  have hbyte : (UInt8.ofNat c.toNat).toNat = c.toNat := Nat.mod_eq_of_lt (Nat.lt_trans (h c hc) (by decide))
  rw [Function.comp_apply, hbyte, Char.ofNat_toNat, id]

namespace Text

/-! ### Digits -/

theorem isDigit_of_mem_toDigits {n : Nat} {c : Char} (h : c ∈ Nat.toDigits 10 n) : isDigit c := by
  have hdigit : c.isDigit := Nat.isDigit_of_mem_toDigits (by decide) (by decide) h
  exact hdigit

theorem decimal_toDigits (n : Nat) : decimal (Nat.toDigits 10 n) = n := by
  have hfold := @Nat.ofDigitChars_eq_foldl 10 (Nat.toDigits 10 n) 0
  rw [Nat.ofDigitChars_ten_toDigits] at hfold
  simp only [decimal, Nat.mul_comm _ 10]
  exact hfold.symm

/-- The first digit of a number is zero only if the number is. -/
theorem head?_toDigits_ne {n : Nat} (h : 0 < n) : (Nat.toDigits 10 n).head? ≠ some '0' := by
  induction n using Nat.strongRecOn with
  | _ n ih =>
      by_cases hlt : n < 10
      · rw [Nat.toDigits_of_lt_base hlt]
        interval_cases n <;> decide
      · -- Without its last digit the number is smaller but still begins with the same digit.
        obtain ⟨c, cs, hdigits⟩ := List.exists_cons_of_ne_nil (@Nat.toDigits_ne_nil (n / 10) 10)
        have hrest := ih (n / 10) (by omega) (by omega)
        rw [Nat.toDigits_of_base_le (by decide) (by omega), hdigits]
        rw [hdigits] at hrest
        exact hrest

end Text

end CodelCurve
