import CodelCurve.Data.Packed
import CodelCurve.Proofs.Data.Text
import Mathlib.Tactic.Ring

/-! The packed forms of values. A number, and the length of a text, a list or a map, may stand in any width that is
enough for it. Whichever forms are taken, the value is read back, whatever follows it; what is written is the shortest of
all forms of the value. -/

namespace CodelCurve

namespace Packed

/-! ### Forms -/

/-- The bytes are a number at the head of a value, in some width. -/
def Head.Form (h : Head) (n : Nat) (bytes : List UInt8) : Prop :=
  n < h.room ∧ bytes = [h.short + UInt8.ofNat n] ∨
    ∃ p ∈ h.wides, n < 256 ^ p.2 ∧ bytes = wide p.1 p.2 n

/-- The bytes are a negative number, in some width. -/
def NegativeForm (n : Int) (bytes : List UInt8) : Prop :=
  -0x20 ≤ n ∧ bytes = [UInt8.ofNat (n + 0x100).toNat] ∨
    ∃ p ∈ [((0xd0 : UInt8), 1), (0xd1, 2), (0xd2, 4), (0xd3, 8)],
      -(256 ^ p.2 / 2 : Nat) ≤ n ∧ bytes = wide p.1 p.2 (n + (256 ^ p.2 : Nat)).toNat

mutual

/-- The bytes are a packed form of the value. -/
def Form : Datum → List UInt8 → Prop
  | .null, bytes => bytes = [0xc0]
  | .bool value, bytes => bytes = [if value then 0xc3 else 0xc2]
  | .nat n, bytes => Head.natural.Form n bytes
  | .int n, bytes => n < 0 ∧ NegativeForm n bytes
  | .text s, bytes => ∃ head, Head.text.Form s.toUTF8.toList.length head ∧ bytes = head ++ s.toUTF8.toList
  | .bytes b, bytes => ∃ head, Head.bytes.Form b.length head ∧ bytes = head ++ b
  | .list items, bytes =>
      ∃ head body, Head.list.Form items.length head ∧ FormItems items body ∧ bytes = head ++ body
  | .map pairs, bytes =>
      ∃ head body, Head.map.Form pairs.length head ∧ FormPairs pairs body ∧ bytes = head ++ body
  -- Of these a value does not keep the bytes.
  | .real, _ => False
  | .special, _ => False

def FormItems : List Datum → List UInt8 → Prop
  | [], bytes => bytes = []
  | item :: rest, bytes => ∃ front back, Form item front ∧ FormItems rest back ∧ bytes = front ++ back

def FormPairs : List (Datum × Datum) → List UInt8 → Prop
  | [], bytes => bytes = []
  | (k, v) :: rest, bytes =>
      ∃ key value back, Form k key ∧ Form v value ∧ FormPairs rest back ∧ bytes = key ++ value ++ back

end

theorem foldl_bigEndian (width n start : Nat) :
    (bigEndian width n).foldl (fun n b => n * 256 + b.toNat) start = start * 256 ^ width + n % 256 ^ width := by
  induction width generalizing start with
  | zero => simp [bigEndian, Nat.mod_one]
  | succ width ih =>
      have hpow : Nat.pow 256 width = 256 ^ width := rfl
      have hbyte : (UInt8.ofNat (n / 256 ^ width)).toNat = n / 256 ^ width % 256 := rfl
      have hmod : n % 256 ^ (width + 1) = n % 256 ^ width + 256 ^ width * (n / 256 ^ width % 256) := Nat.mod_pow_succ
      rw [bigEndian, List.foldl_cons, ih, hpow, hbyte, hmod]
      ring

theorem length_bigEndian (width n : Nat) : (bigEndian width n).length = width := by
  induction width with
  | zero => rfl
  | succ width ih => rw [bigEndian, List.length_cons, ih]

theorem take_append (taken rest : List UInt8) : take taken.length (taken ++ rest) = some (taken, rest) := by
  induction taken with
  | nil => rfl
  | cons b taken ih => rw [List.length_cons, List.cons_append, take, ih, Option.map_some]

theorem takeNumber_bigEndian (width n : Nat) (rest : List UInt8) :
    takeNumber width (bigEndian width n ++ rest) = some (n % 256 ^ width, rest) := by
  have htake := take_append (bigEndian width n) rest
  rw [length_bigEndian] at htake
  have hvalue : ofBigEndian (bigEndian width n) = n % 256 ^ width := by
    rw [ofBigEndian.eq_def, foldl_bigEndian, Nat.zero_mul, Nat.zero_add]
  simp only [takeNumber, htake, Option.map_some, hvalue]

/-! ### Leading bytes -/

section Leads

variable {read : List UInt8 → Option (Datum × List UInt8)} {n lead : Nat} {rest : List UInt8}

theorem body_natural (h : n < 0x80) : body read (0x00 + n) rest = some (.nat n, rest) := by
  unfold body
  rw [Nat.zero_add, if_pos h]

theorem body_map (h : n < 0x10) : body read (0x80 + n) rest = takeMap read n rest := by
  unfold body
  rw [if_neg (by omega), if_pos (by omega), Nat.add_sub_cancel_left]

theorem body_list (h : n < 0x10) : body read (0x90 + n) rest = takeList read n rest := by
  unfold body
  rw [if_neg (by omega), if_neg (by omega), if_pos (by omega), Nat.add_sub_cancel_left]

theorem body_text (h : n < 0x20) : body read (0xa0 + n) rest = takeText n rest := by
  unfold body
  rw [if_neg (by omega), if_neg (by omega), if_neg (by omega), if_pos (by omega), Nat.add_sub_cancel_left]

theorem body_negative (h : 0xe0 ≤ lead) : body read lead rest = some (.int ((lead : Int) - 0x100), rest) := by
  unfold body
  rw [if_neg (by omega), if_neg (by omega), if_neg (by omega), if_neg (by omega), if_pos h]

end Leads

/-! ### Heads -/

theorem sized_bigEndian (width : Nat) {n : Nat} (h : n < 256 ^ width)
    (read : Nat → List UInt8 → Option (Datum × List UInt8)) (rest : List UInt8) :
    sized width read (bigEndian width n ++ rest) = read n rest := by
  rw [sized, takeNumber_bigEndian, Nat.mod_eq_of_lt h]

/-- Whatever form a head has, its number is read if it is read from the leading byte and from each width. -/
theorem Head.Form.value_append {h : Head} {n fuel : Nat} {bytes : List UInt8} (hform : h.Form n bytes)
    (read : Nat → List UInt8 → Option (Datum × List UInt8)) (hroom : h.short.toNat + h.room ≤ 0x100)
    (hshort : n < h.room → ∀ rest, body (value fuel) (h.short.toNat + n) rest = read n rest)
    (hwide : ∀ p ∈ h.wides, ∀ rest, value (fuel + 1) (p.1 :: rest) = sized p.2 read rest) (rest : List UInt8) :
    value (fuel + 1) (bytes ++ rest) = read n rest := by
  rcases hform with ⟨hn, rfl⟩ | ⟨p, hp, hn, rfl⟩
  · have hlead : (h.short + UInt8.ofNat n).toNat = h.short.toNat + n := by
      rw [UInt8.toNat_add]
      show (h.short.toNat + n % 0x100) % 0x100 = h.short.toNat + n
      omega
    rw [List.singleton_append, value, hlead]
    exact hshort hn rest
  · exact (hwide p hp _).trans (sized_bigEndian p.2 hn read rest)

theorem takeNatural_eq_sized (width : Nat) (bytes : List UInt8) :
    takeNatural width bytes = sized width (fun n rest => some (.nat n, rest)) bytes := by
  unfold takeNatural sized
  cases takeNumber width bytes <;> rfl

section Value

variable {n fuel : Nat} {head : List UInt8} (rest : List UInt8)

theorem value_natural (h : Head.natural.Form n head) : value (fuel + 1) (head ++ rest) = some (.nat n, rest) := by
  refine h.value_append (fun n rest => some (.nat n, rest)) (by decide) (fun hn _ => body_natural hn) ?_ rest
  intro p hp rest
  simp only [Head.natural, List.mem_cons, List.not_mem_nil, or_false] at hp
  rcases hp with rfl | rfl | rfl | rfl <;> exact takeNatural_eq_sized _ rest

theorem value_textHead (h : Head.text.Form n head) : value (fuel + 1) (head ++ rest) = takeText n rest := by
  refine h.value_append takeText (by decide) (fun hn _ => body_text hn) ?_ rest
  intro p hp rest
  simp only [Head.text, List.mem_cons, List.not_mem_nil, or_false] at hp
  rcases hp with rfl | rfl | rfl <;> rfl

theorem value_bytesHead (h : Head.bytes.Form n head) : value (fuel + 1) (head ++ rest) = takeBytes n rest := by
  refine h.value_append takeBytes (by decide) (fun hn _ => absurd hn (Nat.not_lt_zero n)) ?_ rest
  intro p hp rest
  simp only [Head.bytes, List.mem_cons, List.not_mem_nil, or_false] at hp
  rcases hp with rfl | rfl | rfl <;> rfl

theorem value_listHead (h : Head.list.Form n head) :
    value (fuel + 1) (head ++ rest) = takeList (value fuel) n rest := by
  refine h.value_append (takeList (value fuel)) (by decide) (fun hn _ => body_list hn) ?_ rest
  intro p hp rest
  simp only [Head.list, List.mem_cons, List.not_mem_nil, or_false] at hp
  rcases hp with rfl | rfl <;> rfl

theorem value_mapHead (h : Head.map.Form n head) :
    value (fuel + 1) (head ++ rest) = takeMap (value fuel) n rest := by
  refine h.value_append (takeMap (value fuel)) (by decide) (fun hn _ => body_map hn) ?_ rest
  intro p hp rest
  simp only [Head.map, List.mem_cons, List.not_mem_nil, or_false] at hp
  rcases hp with rfl | rfl <;> rfl

end Value

theorem takeSigned_bigEndian (width : Nat) {n : Int} (hwidth : 0 < width) (hlow : -(256 ^ width / 2 : Nat) ≤ n)
    (hhigh : n < 0) (rest : List UInt8) :
    takeSigned width (bigEndian width (n + (256 ^ width : Nat)).toNat ++ rest) = some (.int n, rest) := by
  have hpow : Nat.pow 256 width = 256 ^ width := rfl
  have heven : 2 * (256 ^ width / 2) = 256 ^ width := Nat.mul_div_cancel' (dvd_pow (by decide) hwidth.ne')
  simp only [takeSigned, takeNumber_bigEndian, Option.map_some, hpow]
  generalize 256 ^ width = size at hlow heven
  have hlt : (n + (size : Int)).toNat % size = (n + (size : Int)).toNat := Nat.mod_eq_of_lt (by omega)
  have hupper : ¬ (n + (size : Int)).toNat < size / 2 := by omega
  have hvalue : ((n + (size : Int)).toNat : Int) - size = n := by omega
  rw [hlt, if_neg hupper, hvalue]

theorem value_negative {n : Int} {bytes : List UInt8} (h : NegativeForm n bytes) (hhigh : n < 0) (fuel : Nat)
    (rest : List UInt8) : value (fuel + 1) (bytes ++ rest) = some (.int n, rest) := by
  rcases h with ⟨hlow, rfl⟩ | ⟨p, hp, hlow, rfl⟩
  · have hlead : (UInt8.ofNat (n + 0x100).toNat).toNat = (n + 0x100).toNat := Nat.mod_eq_of_lt (by omega)
    have hvalue : ((n + 0x100).toNat : Int) - 0x100 = n := by omega
    rw [List.singleton_append, value, hlead, body_negative (by omega), hvalue]
  · simp only [List.mem_cons, List.not_mem_nil, or_false] at hp
    rcases hp with rfl | rfl | rfl | rfl <;> exact takeSigned_bigEndian _ (by decide) hlow hhigh rest

/-! ### Values -/

theorem Head.Form.ne_nil {h : Head} {n : Nat} {bytes : List UInt8} (hform : h.Form n bytes) : bytes ≠ [] := by
  rcases hform with ⟨_, rfl⟩ | ⟨_, _, _, rfl⟩ <;> exact List.cons_ne_nil _ _

theorem Form.ne_nil {d : Datum} {bytes : List UInt8} (h : Form d bytes) : bytes ≠ [] := by
  cases d with
  | null | bool =>
      rw [show bytes = _ from h]
      exact List.cons_ne_nil _ _
  | nat n => exact Head.Form.ne_nil h
  | int n => rcases h.2 with ⟨_, rfl⟩ | ⟨_, _, _, rfl⟩ <;> exact List.cons_ne_nil _ _
  | text | bytes =>
      obtain ⟨head, hhead, rfl⟩ := h
      exact List.append_ne_nil_of_left_ne_nil hhead.ne_nil _
  | list | map =>
      obtain ⟨head, body, hhead, _, rfl⟩ := h
      exact List.append_ne_nil_of_left_ne_nil hhead.ne_nil _
  | real | special => exact h.elim

mutual

-- The number bounds how deep values are nested, and each value has a leading byte: so the bytes are always enough.

/-- A value is read back from any of its forms, whatever follows it. -/
theorem value_of_form : ∀ (d : Datum) (fuel : Nat) (bytes rest : List UInt8), Form d bytes → bytes.length ≤ fuel →
    value fuel (bytes ++ rest) = some (d, rest)
  | _, 0, bytes, _, hform, hfuel => absurd (List.eq_nil_of_length_eq_zero (Nat.le_zero.mp hfuel)) hform.ne_nil
  | .null, _ + 1, _, _, rfl, _ => rfl
  | .bool false, _ + 1, _, _, rfl, _ => rfl
  | .bool true, _ + 1, _, _, rfl, _ => rfl
  | .nat _, _ + 1, _, rest, hform, _ => value_natural rest hform
  | .int _, fuel + 1, _, rest, ⟨hnegative, hform⟩, _ => value_negative hform hnegative fuel rest
  | .text s, fuel + 1, _, rest, ⟨head, hhead, rfl⟩, _ => by
      simp only [List.append_assoc, value_textHead _ hhead, takeText, take_append, Option.map_some, Datum.ofBytes_toUTF8]
  | .bytes b, fuel + 1, _, rest, ⟨head, hhead, rfl⟩, _ => by
      simp only [List.append_assoc, value_bytesHead _ hhead, takeBytes, take_append, Option.map_some]
  | .list items, fuel + 1, _, rest, ⟨head, body, hhead, hitems, rfl⟩, hfuel => by
      have hlength := List.length_pos_iff.mpr hhead.ne_nil
      rw [List.length_append] at hfuel
      simp only [List.append_assoc, value_listHead _ hhead, takeList,
        items_of_form items fuel body rest hitems (by omega), Option.map_some]
  | .map pairs, fuel + 1, _, rest, ⟨head, body, hhead, hpairs, rfl⟩, hfuel => by
      have hlength := List.length_pos_iff.mpr hhead.ne_nil
      rw [List.length_append] at hfuel
      simp only [List.append_assoc, value_mapHead _ hhead, takeMap,
        pairs_of_form pairs fuel body rest hpairs (by omega), Option.map_some]
  | .real, _ + 1, _, _, hform, _ => hform.elim
  | .special, _ + 1, _, _, hform, _ => hform.elim

theorem items_of_form : ∀ (ds : List Datum) (fuel : Nat) (bytes rest : List UInt8), FormItems ds bytes →
    bytes.length ≤ fuel → items (value fuel) ds.length (bytes ++ rest) = some (ds, rest)
  | [], _, _, _, rfl, _ => rfl
  | d :: ds, fuel, _, rest, ⟨front, back, hfront, hback, rfl⟩, hfuel => by
      rw [List.length_append] at hfuel
      simp only [List.append_assoc, List.length_cons, items, value_of_form d fuel front _ hfront (by omega),
        items_of_form ds fuel back rest hback (by omega), Option.map_some]

theorem pairs_of_form : ∀ (ps : List (Datum × Datum)) (fuel : Nat) (bytes rest : List UInt8), FormPairs ps bytes →
    bytes.length ≤ fuel → pairs (value fuel) ps.length (bytes ++ rest) = some (ps, rest)
  | [], _, _, _, rfl, _ => rfl
  | (k, v) :: ps, fuel, _, rest, ⟨key, val, back, hkey, hvalue, hback, rfl⟩, hfuel => by
      rw [List.length_append, List.length_append] at hfuel
      simp only [List.append_assoc, List.length_cons, pairs, value_of_form k fuel key _ hkey (by omega),
        value_of_form v fuel val _ hvalue (by omega), pairs_of_form ps fuel back rest hback (by omega), Option.map_some]

end

theorem decode_of_form {d : Datum} {bytes : List UInt8} (h : Form d bytes) (z : List UInt8) :
    decode (bytes ++ z) = some d := by
  rw [decode, value_of_form d _ bytes z h (by rw [List.length_append]; omega)]
  rfl

/-! ### Shortest forms -/

theorem length_wide (lead : UInt8) (width n : Nat) : (wide lead width n).length = width + 1 := by
  rw [wide, List.length_cons, length_bigEndian]

namespace Head

/-- If any width is enough for a number, the first that is enough is taken. -/
theorem exists_widened {wides : List (UInt8 × Nat)} (hsorted : (wides.map Prod.snd).Pairwise (· ≤ ·))
    {p : UInt8 × Nat} (hp : p ∈ wides) {n : Nat} (hn : n < 256 ^ p.2) :
    ∃ q ∈ wides, n < 256 ^ q.2 ∧ q.2 ≤ p.2 ∧ widened wides n = wide q.1 q.2 n := by
  induction wides with
  | nil => cases hp
  | cons first rest ih =>
      obtain ⟨hfirst, hrest⟩ := List.pairwise_cons.mp hsorted
      cases rest with
      | nil =>
          obtain rfl := List.mem_singleton.mp hp
          exact ⟨p, hp, hn, le_rfl, rfl⟩
      | cons other rest =>
          have hwidened : widened (first :: other :: rest) n =
              if n < 256 ^ first.2 then wide first.1 first.2 n else widened (other :: rest) n := rfl
          by_cases henough : n < 256 ^ first.2
          · refine ⟨first, List.mem_cons_self, henough, ?_, hwidened.trans (if_pos henough)⟩
            rcases List.mem_cons.mp hp with rfl | hp
            · exact le_rfl
            · exact hfirst p.2 (List.mem_map_of_mem hp)
          · have hlater : p ∈ other :: rest := by
              rcases List.mem_cons.mp hp with rfl | hp
              · exact absurd hn henough
              · exact hp
            obtain ⟨q, hq, hqn, hle, heq⟩ := ih hrest hlater
            exact ⟨q, List.mem_cons_of_mem _ hq, hqn, hle, hwidened.trans ((if_neg henough).trans heq)⟩

/-- A number that has a head at all is written to the shortest one. -/
theorem Form.shortest {h : Head} {n : Nat} {bytes : List UInt8} (hform : h.Form n bytes)
    (hsorted : (h.wides.map Prod.snd).Pairwise (· ≤ ·)) :
    h.Form n (h.write n) ∧ (h.write n).length ≤ bytes.length := by
  have hbytes := List.length_pos_iff.mpr hform.ne_nil
  unfold write
  split_ifs with hroom
  · exact ⟨.inl ⟨hroom, rfl⟩, hbytes⟩
  · rcases hform with ⟨hn, _⟩ | ⟨p, hp, hn, rfl⟩
    · exact absurd hn hroom
    · obtain ⟨q, hq, hqn, hle, heq⟩ := exists_widened hsorted hp hn
      refine ⟨.inr ⟨q, hq, hqn, heq⟩, ?_⟩
      rw [heq, length_wide, length_wide]
      omega

end Head

/-- A negative number that has a form at all is written in the shortest one. -/
theorem NegativeForm.shortest {n : Int} {bytes : List UInt8} (h : NegativeForm n bytes) :
    NegativeForm n (negative n) ∧ (negative n).length ≤ bytes.length := by
  rcases h with ⟨hlow, rfl⟩ | ⟨p, hp, hlow, rfl⟩
  · rw [negative, if_pos hlow]
    exact ⟨.inl ⟨hlow, rfl⟩, le_rfl⟩
  · have hwidth : 1 ≤ p.2 ∧ (n < -0x80 → 2 ≤ p.2) ∧ (n < -0x8000 → 4 ≤ p.2) ∧
        (n < -0x80000000 → 8 ≤ p.2 ∧ -0x8000000000000000 ≤ n) := by
      simp only [List.mem_cons, List.not_mem_nil, or_false] at hp
      rcases hp with rfl | rfl | rfl | rfl <;> simp at hlow ⊢ <;> omega
    obtain ⟨hone, htwo, hfour, height⟩ := hwidth
    rw [length_wide]
    unfold negative
    split_ifs with hfix hbyte hpair hquad
    · exact ⟨.inl ⟨hfix, rfl⟩, by simp⟩
    · exact ⟨.inr ⟨(0xd0, 1), by simp, hbyte, rfl⟩, by rw [length_wide]; omega⟩
    · exact ⟨.inr ⟨(0xd1, 2), by simp, hpair, rfl⟩, by rw [length_wide]; omega⟩
    · exact ⟨.inr ⟨(0xd2, 4), by simp, hquad, rfl⟩, by rw [length_wide]; omega⟩
    · exact ⟨.inr ⟨(0xd3, 8), by simp, (height (by omega)).2, rfl⟩, by rw [length_wide]; omega⟩

mutual

/-- A value that has a form at all is written in the shortest one. -/
theorem form_encode : ∀ (d : Datum) (bytes : List UInt8), Form d bytes →
    Form d (encode d) ∧ (encode d).length ≤ bytes.length
  | .null, _, rfl => ⟨rfl, le_rfl⟩
  | .bool false, _, rfl => ⟨rfl, le_rfl⟩
  | .bool true, _, rfl => ⟨rfl, le_rfl⟩
  | .nat n, _, hform => hform.shortest (by decide)
  | .int n, _, ⟨hnegative, hform⟩ => by
      rw [encode, if_pos hnegative]
      exact ⟨⟨hnegative, hform.shortest.1⟩, hform.shortest.2⟩
  | .text s, _, ⟨head, hhead, rfl⟩ => by
      obtain ⟨hform, hlength⟩ := hhead.shortest (by decide)
      refine ⟨⟨_, hform, rfl⟩, ?_⟩
      rw [encode, List.length_append, List.length_append]
      omega
  | .bytes b, _, ⟨head, hhead, rfl⟩ => by
      obtain ⟨hform, hlength⟩ := hhead.shortest (by decide)
      refine ⟨⟨_, hform, rfl⟩, ?_⟩
      rw [encode, List.length_append, List.length_append]
      omega
  | .list items, _, ⟨head, body, hhead, hitems, rfl⟩ => by
      obtain ⟨hform, hlength⟩ := hhead.shortest (by decide)
      obtain ⟨hinside, hshorter⟩ := formItems_encode items body hitems
      refine ⟨⟨_, _, hform, hinside, rfl⟩, ?_⟩
      rw [encode, List.length_append, List.length_append]
      omega
  | .map pairs, _, ⟨head, body, hhead, hpairs, rfl⟩ => by
      obtain ⟨hform, hlength⟩ := hhead.shortest (by decide)
      obtain ⟨hinside, hshorter⟩ := formPairs_encode pairs body hpairs
      refine ⟨⟨_, _, hform, hinside, rfl⟩, ?_⟩
      rw [encode, List.length_append, List.length_append]
      omega
  | .real, _, hform => hform.elim
  | .special, _, hform => hform.elim

theorem formItems_encode : ∀ (ds : List Datum) (bytes : List UInt8), FormItems ds bytes →
    FormItems ds (encodeItems ds) ∧ (encodeItems ds).length ≤ bytes.length
  | [], _, rfl => ⟨rfl, le_rfl⟩
  | d :: ds, _, ⟨front, back, hfront, hback, rfl⟩ => by
      obtain ⟨hform, hlength⟩ := form_encode d front hfront
      obtain ⟨hothers, hshorter⟩ := formItems_encode ds back hback
      refine ⟨⟨_, _, hform, hothers, rfl⟩, ?_⟩
      rw [encodeItems, List.length_append, List.length_append]
      omega

theorem formPairs_encode : ∀ (ps : List (Datum × Datum)) (bytes : List UInt8), FormPairs ps bytes →
    FormPairs ps (encodePairs ps) ∧ (encodePairs ps).length ≤ bytes.length
  | [], _, rfl => ⟨rfl, le_rfl⟩
  | (k, v) :: ps, _, ⟨key, val, back, hkey, hvalue, hback, rfl⟩ => by
      obtain ⟨hfirst, hlength⟩ := form_encode k key hkey
      obtain ⟨hsecond, hlength'⟩ := form_encode v val hvalue
      obtain ⟨hothers, hshorter⟩ := formPairs_encode ps back hback
      refine ⟨⟨_, _, _, hfirst, hsecond, hothers, rfl⟩, ?_⟩
      simp only [encodePairs, List.length_append]
      omega

end

end Packed

end CodelCurve
