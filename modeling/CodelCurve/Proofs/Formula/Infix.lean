import CodelCurve.Formula.Basic
import CodelCurve.Proofs.Data.Text

/-! What the text of a formula says. The ordinary grammar of expressions has sums of products of powers, with decimal
numerals and parentheses as atoms; sums and products are read from the left, and an exponent is a numeral. A text of the
grammar has one meaning only, which is found by a reader that goes over it once. The text of a formula has just the
parentheses that the grammar needs to give the formula back. -/

namespace CodelCurve

namespace Infix

/-! ### Lexemes -/

inductive Lexeme where
  | number (n : Nat)
  | operator (operator : Operator)
  | power
  | opening
  | closing
  deriving DecidableEq, Repr

def symbol? : Char → Option Lexeme
  | '+' => some (.operator .add)
  | '-' => some (.operator .subtract)
  | '*' => some (.operator .multiply)
  | '/' => some (.operator .divide)
  | '^' => some .power
  | '(' => some .opening
  | ')' => some .closing
  | _ => none

/-- The numeral whose digits have just been read, if there were any. -/
def numeral (digits : Option Nat) : List Lexeme := (digits.map .number).toList

/-- The lexemes of a text that goes on from the digits of a numeral. Blanks separate lexemes, and all other characters
have to be symbols. -/
def lexemes? : Option Nat → List Char → Option (List Lexeme)
  | digits, [] => some (numeral digits)
  | digits, c :: rest =>
    if Text.isDigit c then lexemes? (some (digits.getD 0 * 10 + (c.toNat - '0'.toNat))) rest
    else if c = ' ' then (lexemes? none rest).map (numeral digits ++ ·)
    else (symbol? c).bind fun l => (lexemes? none rest).map (numeral digits ++ l :: ·)

/-! ### The grammar -/

/-- What numerals, operators and powers make of the meanings of their parts. -/
structure Meaning (α : Type) where
  number : Nat → α
  binary : Operator → α → α → α
  power : α → Nat → α

/-- Expressions as formulas. -/
def formulas : Meaning Formula := ⟨fun n => .leaf n, .binary, .power⟩

/-- Expressions as the numbers they come to, unless their arithmetic fails. -/
def values : Meaning (Option Int) where
  number n := some n
  binary operator a b := do operator.eval? (← a) (← b)
  power a exponent := do Word.pow? (← a) exponent

/-- How tightly an expression binds. -/
inductive Level where
  | sum
  | product
  | power
  | atom
  deriving DecidableEq

namespace Level

def tighter : Level → Level
  | sum => product
  | product => power
  | power => atom
  | atom => atom

/-- The level of the expressions that an operator joins. -/
def joinedBy : Operator → Level
  | .add => sum
  | .subtract => sum
  | .multiply => product
  | .divide => product

end Level

variable {α : Type} {M : Meaning α}

/-- The expressions of the ordinary grammar and their meanings. -/
inductive Derives (M : Meaning α) : Level → List Lexeme → α → Prop
  | number (n : Nat) : Derives M .atom [.number n] (M.number n)
  | enclosed {ts : List Lexeme} {a : α} : Derives M .sum ts a → Derives M .atom (.opening :: ts ++ [.closing]) a
  | raised {ts : List Lexeme} {a : α} (exponent : Nat) :
      Derives M .atom ts a → Derives M .power (ts ++ [.power, .number exponent]) (M.power a exponent)
  | joined {ts us : List Lexeme} {a b : α} (o : Operator) :
      Derives M (.joinedBy o) ts a → Derives M (Level.joinedBy o).tighter us b →
        Derives M (.joinedBy o) (ts ++ .operator o :: us) (M.binary o a b)
  | loosely {level : Level} {ts : List Lexeme} {a : α} : Derives M level.tighter ts a → Derives M level ts a

/-- A text is an expression with a meaning. -/
def Denotes (M : Meaning α) (text : String) (a : α) : Prop :=
  ∃ ts, lexemes? none text.toList = some ts ∧ Derives M .sum ts a

/-! ### The reader -/

/-- What was read since a parenthesis was opened: a sum and a product that wait for their right operand. -/
structure Pending (α : Type) where
  sum : Option (α × Operator)
  product : Option (α × Operator)

namespace Pending

def empty : Pending α := ⟨none, none⟩

/-- An operand joined to what waits for it. -/
def join (M : Meaning α) : Option (α × Operator) → α → α
  | none, b => b
  | some (a, o), b => M.binary o a b

/-- The product that a factor completes. -/
def times (M : Meaning α) (p : Pending α) (a : α) : α := join M p.product a

/-- The sum that a factor completes. -/
def total (M : Meaning α) (p : Pending α) (a : α) : α := join M p.sum (p.times M a)

/-- What waits after a factor and an operator. -/
def extend (M : Meaning α) (p : Pending α) (a : α) (o : Operator) : Pending α :=
  match Level.joinedBy o with
  | .sum => ⟨some (p.total M a, o), none⟩
  | _ => ⟨p.sum, some (p.times M a, o)⟩

end Pending

/-- What has just been read: nothing that an operator could follow, an atom, which may be raised, an atom to be raised,
or a power. -/
inductive Phase (α : Type) where
  | start
  | atom (a : α)
  | base (a : α)
  | power (a : α)

def Phase.factor? : Phase α → Option α
  | .atom a => some a
  | .power a => some a
  | _ => none

structure Reader (α : Type) where
  /-- What waits outside the parentheses that are open, the innermost first. -/
  outside : List (Pending α)
  inside : Pending α
  phase : Phase α

namespace Reader

def step (M : Meaning α) (r : Reader α) (l : Lexeme) : Option (Reader α) :=
  match r.phase, l with
  | .start, .number n => some { r with phase := .atom (M.number n) }
  | .start, .opening => some ⟨r.inside :: r.outside, .empty, .start⟩
  | .atom a, .power => some { r with phase := .base a }
  | .base a, .number n => some { r with phase := .power (M.power a n) }
  | phase, .operator o => phase.factor?.map fun a => ⟨r.outside, r.inside.extend M a o, .start⟩
  | phase, .closing =>
    match r.outside with
    | [] => none
    | p :: outside => phase.factor?.map fun a => ⟨outside, p, .atom (r.inside.total M a)⟩
  | _, _ => none

def run (M : Meaning α) (r : Reader α) (ts : List Lexeme) : Option (Reader α) := ts.foldlM (step M) r

/-- The meaning of the whole, when no parenthesis is open and no operator waits. -/
def result? (M : Meaning α) (r : Reader α) : Option α :=
  match r.outside with
  | [] => r.phase.factor?.map (r.inside.total M)
  | _ :: _ => none

end Reader

/-- Reads a text to its end. -/
def read? (M : Meaning α) (text : String) : Option α := do
  let ts ← lexemes? none text.toList
  let r ← Reader.run M ⟨[], .empty, .start⟩ ts
  r.result? M

/-! ### Reading what the grammar derives -/

namespace Reader

theorem run_append (r : Reader α) (ts us : List Lexeme) :
    run M r (ts ++ us) = (run M r ts).bind fun r => run M r us :=
  List.foldlM_append

theorem run_cons (r : Reader α) (l : Lexeme) (ts : List Lexeme) :
    run M r (l :: ts) = (step M r l).bind fun r => run M r ts :=
  List.foldlM_cons

theorem step_operator {outside : List (Pending α)} {p : Pending α} {phase : Phase α} {a : α}
    (h : phase.factor? = some a) (o : Operator) :
    step M ⟨outside, p, phase⟩ (.operator o) = some ⟨outside, p.extend M a o, .start⟩ := by
  cases phase <;> cases h <;> rfl

theorem step_closing {outside : List (Pending α)} {p q : Pending α} {phase : Phase α} {a : α}
    (h : phase.factor? = some a) :
    step M ⟨q :: outside, p, phase⟩ .closing = some ⟨outside, q, .atom (p.total M a)⟩ := by
  cases phase <;> cases h <;> rfl

/-- The reader finds a meaning in lexemes at a level, wherever such an expression may stand. -/
def Finds (M : Meaning α) (ts : List Lexeme) (a : α) : Level → Prop
  | .atom => ∀ outside p, run M ⟨outside, p, .start⟩ ts = some ⟨outside, p, .atom a⟩
  | .power => ∀ outside p, ∃ phase, run M ⟨outside, p, .start⟩ ts = some ⟨outside, p, phase⟩ ∧ phase.factor? = some a
  | .product => ∀ outside sum, ∃ product phase b,
      run M ⟨outside, ⟨sum, none⟩, .start⟩ ts = some ⟨outside, ⟨sum, product⟩, phase⟩ ∧
        phase.factor? = some b ∧ Pending.join M product b = a
  | .sum => ∀ outside, ∃ p phase b,
      run M ⟨outside, .empty, .start⟩ ts = some ⟨outside, p, phase⟩ ∧ phase.factor? = some b ∧ p.total M b = a

theorem Finds.joined_sum {ts us : List Lexeme} {a b : α} {o : Operator} (ho : Level.joinedBy o = .sum)
    (hleft : Finds M ts a .sum) (hright : Finds M us b .product) :
    Finds M (ts ++ .operator o :: us) (M.binary o a b) .sum := by
  intro outside
  obtain ⟨p, phase, c, hrun, hfactor, htotal⟩ := hleft outside
  obtain ⟨product, phase', d, hrun', hfactor', hproduct⟩ := hright outside (some (a, o))
  have hextend : p.extend M c o = ⟨some (a, o), none⟩ := by
    simp only [Pending.extend, ho, htotal]
  refine ⟨⟨some (a, o), product⟩, phase', d, ?_, hfactor', ?_⟩
  · rw [run_append, hrun, Option.bind_some, run_cons, step_operator hfactor, Option.bind_some, hextend]
    exact hrun'
  · rw [Pending.total, Pending.times, hproduct]
    rfl

theorem Finds.joined_product {ts us : List Lexeme} {a b : α} {o : Operator} (ho : Level.joinedBy o = .product)
    (hleft : Finds M ts a .product) (hright : Finds M us b .power) :
    Finds M (ts ++ .operator o :: us) (M.binary o a b) .product := by
  intro outside sum
  obtain ⟨product, phase, c, hrun, hfactor, hproduct⟩ := hleft outside sum
  obtain ⟨phase', hrun', hfactor'⟩ := hright outside ⟨sum, some (a, o)⟩
  have hextend : Pending.extend M ⟨sum, product⟩ c o = ⟨sum, some (a, o)⟩ := by
    simp only [Pending.extend, ho, Pending.times, hproduct]
  refine ⟨some (a, o), phase', b, ?_, hfactor', rfl⟩
  rw [run_append, hrun, Option.bind_some, run_cons, step_operator hfactor, Option.bind_some, hextend]
  exact hrun'

theorem finds_of_derives {level : Level} {ts : List Lexeme} {a : α} (h : Derives M level ts a) :
    Finds M ts a level := by
  induction h with
  | number n => exact fun outside p => rfl
  | @enclosed ts a _ ih =>
      intro outside p
      obtain ⟨q, phase, b, hrun, hfactor, htotal⟩ := ih (p :: outside)
      have hopening : step M ⟨outside, p, .start⟩ .opening = some ⟨p :: outside, .empty, .start⟩ := rfl
      rw [List.cons_append, run_cons, hopening, Option.bind_some, run_append, hrun, Option.bind_some, run_cons,
        step_closing hfactor, htotal]
      rfl
  | raised exponent _ ih =>
      intro outside p
      refine ⟨.power _, ?_, rfl⟩
      rw [run_append, ih outside p]
      rfl
  | joined o _ _ ihleft ihright =>
      cases o with
      | add | subtract => exact ihleft.joined_sum rfl ihright
      | multiply | divide => exact ihleft.joined_product rfl ihright
  | @loosely level ts a _ ih =>
      cases level with
      | atom => exact ih
      | power => exact fun outside p => ⟨_, ih outside p, rfl⟩
      | product =>
          intro outside sum
          obtain ⟨phase, hrun, hfactor⟩ := ih outside ⟨sum, none⟩
          exact ⟨none, phase, a, hrun, hfactor, rfl⟩
      | sum =>
          intro outside
          obtain ⟨product, phase, b, hrun, hfactor, hproduct⟩ := ih outside none
          exact ⟨⟨none, product⟩, phase, b, hrun, hfactor, hproduct⟩

end Reader

theorem Denotes.read? {text : String} {a : α} (h : Denotes M text a) : read? M text = some a := by
  obtain ⟨ts, hts, hderives⟩ := h
  obtain ⟨p, phase, b, hrun, hfactor, htotal⟩ := Reader.finds_of_derives hderives []
  simp only [Infix.read?, hts, hrun, Reader.result?, hfactor, htotal, Option.bind_eq_bind, Option.bind_some,
    Option.map_some]

theorem Denotes.unique {text : String} {a b : α} (ha : Denotes M text a) (hb : Denotes M text b) : a = b :=
  Option.some.inj (ha.read?.symm.trans hb.read?)

/-! ### Texts in lexemes -/

/-- What may follow a numeral. -/
def Ends (rest : List Char) : Prop := ∀ c ∈ rest.head?, Text.isDigit c = false

theorem lexemes?_of_ends (digits : Option Nat) {rest : List Char} (h : Ends rest) :
    lexemes? digits rest = (lexemes? none rest).map (numeral digits ++ ·) := by
  cases rest with
  | nil => simp [lexemes?, numeral]
  | cons c rest =>
      have hc : Text.isDigit c = false := h c rfl
      by_cases hblank : c = ' '
      · subst hblank
        simp [lexemes?, hc, numeral]
      · cases hsymbol : symbol? c <;> simp [lexemes?, hc, hblank, hsymbol, numeral, Function.comp_def]

theorem lexemes?_digits {cs : List Char} (hcs : ∀ c ∈ cs, Text.isDigit c) (n : Nat) (rest : List Char) :
    lexemes? (some n) (cs ++ rest) = lexemes? (some (cs.foldl (fun n c => n * 10 + (c.toNat - '0'.toNat)) n)) rest := by
  induction cs generalizing n with
  | nil => rfl
  | cons c cs ih =>
      rw [List.cons_append, lexemes?, if_pos (hcs c List.mem_cons_self), List.foldl_cons]
      exact ih (fun d hd => hcs d (List.mem_cons_of_mem _ hd)) _

theorem lexemes?_numeral (n : Nat) {rest : List Char} (h : Ends rest) :
    lexemes? none (Nat.toDigits 10 n ++ rest) = (lexemes? none rest).map (.number n :: ·) := by
  have hdigits : ∀ c ∈ Nat.toDigits 10 n, Text.isDigit c := fun c => Text.isDigit_of_mem_toDigits
  have hdecimal := Text.decimal_toDigits n
  obtain ⟨c, cs, hcons⟩ := List.exists_cons_of_ne_nil (@Nat.toDigits_ne_nil n 10)
  rw [hcons] at hdigits hdecimal
  have hrest :=
    lexemes?_digits (fun d hd => hdigits d (List.mem_cons_of_mem _ hd)) (0 * 10 + (c.toNat - '0'.toNat)) rest
  rw [hcons, List.cons_append, lexemes?, if_pos (hdigits c List.mem_cons_self), Option.getD_none, hrest,
    ← List.foldl_cons (l := cs), ← Text.decimal, hdecimal, lexemes?_of_ends _ h]
  rfl

/-- A part of a text is made of lexemes, whatever may follow it. -/
def Lexes (cs : List Char) (ts : List Lexeme) : Prop :=
  ∀ rest, Ends rest → lexemes? none (cs ++ rest) = (lexemes? none rest).map (ts ++ ·)

namespace Lexes

variable {cs ds : List Char} {ts us : List Lexeme}

theorem enclosed (h : Lexes cs ts) : Lexes ('(' :: cs ++ [')']) (.opening :: ts ++ [.closing]) := by
  intro rest _
  have hopening : ∀ text, lexemes? none ('(' :: text) = (lexemes? none text).map (.opening :: ·) := fun _ => rfl
  have hclosing : ∀ text, lexemes? none (')' :: text) = (lexemes? none text).map (.closing :: ·) := fun _ => rfl
  have hends : Ends (')' :: rest) := fun c hc => by
    cases hc
    rfl
  have htext : '(' :: cs ++ [')'] ++ rest = '(' :: (cs ++ ')' :: rest) := by simp
  rw [htext, hopening, h _ hends, hclosing]
  simp [Function.comp_def]

/-- Two parts with a symbol between blanks. -/
theorem spaced {c : Char} {l : Lexeme} (hcs : Lexes cs ts) (hds : Lexes ds us) (hsymbol : symbol? c = some l)
    (hdigit : Text.isDigit c = false) (hblank : c ≠ ' ') : Lexes (cs ++ [' ', c, ' '] ++ ds) (ts ++ l :: us) := by
  intro rest hrest
  have hmiddle : ∀ text, lexemes? none (' ' :: c :: ' ' :: text) = (lexemes? none text).map (l :: ·) := by
    intro text
    have hspace : Text.isDigit ' ' = false := rfl
    simp [lexemes?, hspace, hdigit, hblank, hsymbol, numeral, Function.comp_def]
  have hends : Ends (' ' :: c :: ' ' :: (ds ++ rest)) := fun c hc => by
    cases hc
    rfl
  have htext : cs ++ [' ', c, ' '] ++ ds ++ rest = cs ++ ' ' :: c :: ' ' :: (ds ++ rest) := by simp
  rw [htext, hcs _ hends, hmiddle, hds _ hrest]
  simp [Function.comp_def]

end Lexes

/-- A part of a text is an expression with a meaning. -/
def Spells (M : Meaning α) (level : Level) (cs : List Char) (a : α) : Prop := ∃ ts, Lexes cs ts ∧ Derives M level ts a

namespace Spells

variable {cs ds : List Char} {a b : α}

theorem number (n : Nat) : Spells M .atom (Nat.toDigits 10 n) (M.number n) :=
  ⟨[.number n], fun _ h => lexemes?_numeral n h, .number n⟩

theorem enclosed (h : Spells M .sum cs a) : Spells M .atom ('(' :: cs ++ [')']) a := by
  obtain ⟨ts, hlexes, hderives⟩ := h
  exact ⟨_, hlexes.enclosed, hderives.enclosed⟩

theorem raised (h : Spells M .atom cs a) (exponent : Nat) :
    Spells M .power (cs ++ [' ', '^', ' '] ++ Nat.toDigits 10 exponent) (M.power a exponent) := by
  obtain ⟨ts, hlexes, hderives⟩ := h
  exact ⟨_, hlexes.spaced (fun _ h => lexemes?_numeral exponent h) rfl rfl (by decide), hderives.raised exponent⟩

theorem joined {o : Operator} (hleft : Spells M (.joinedBy o) cs a)
    (hright : Spells M (Level.joinedBy o).tighter ds b) :
    Spells M (.joinedBy o) (cs ++ [' ', o.symbol, ' '] ++ ds) (M.binary o a b) := by
  obtain ⟨ts, hcs, hts⟩ := hleft
  obtain ⟨us, hds, hus⟩ := hright
  have hsymbol : symbol? o.symbol = some (.operator o) := by cases o <;> rfl
  have hdigit : Text.isDigit o.symbol = false := by cases o <;> rfl
  exact ⟨_, hcs.spaced hds hsymbol hdigit (by cases o <;> decide), .joined o hts hus⟩

theorem loosely {level : Level} (h : Spells M level.tighter cs a) : Spells M level cs a := by
  obtain ⟨ts, hlexes, hderives⟩ := h
  exact ⟨ts, hlexes, hderives.loosely⟩

theorem of_atom (h : Spells M .atom cs a) (level : Level) : Spells M level cs a := by
  have hpower : Spells M .power cs a := loosely h
  have hproduct : Spells M .product cs a := loosely hpower
  cases level with
  | atom => exact h
  | power => exact hpower
  | product => exact hproduct
  | sum => exact loosely hproduct

theorem toSum {level : Level} (h : Spells M level cs a) : Spells M .sum cs a := by
  cases level with
  | sum => exact h
  | product => exact loosely h
  | power => exact loosely (show Spells M .product cs a from loosely h)
  | atom => exact h.of_atom .sum

theorem denotes (h : Spells M .sum cs a) : Denotes M (String.ofList cs) a := by
  obtain ⟨ts, hlexes, hderives⟩ := h
  have hwhole := hlexes [] fun c hc => by cases hc
  rw [List.append_nil] at hwhole
  exact ⟨ts, by rw [String.toList_ofList, hwhole]; simp [lexemes?, numeral], hderives⟩

end Spells

end Infix

/-! ### The texts of formulas -/

/-- Only products and quotients bind more tightly than another operator, and only than sums and differences. -/
theorem Infix.joinedBy_of_lt {outer inner : Operator} (h : outer.precedence < inner.precedence) :
    Level.joinedBy inner = (Level.joinedBy outer).tighter := by
  revert h
  cases outer <;> cases inner <;> decide

namespace Formula

open Infix (Level Meaning Spells Denotes formulas values read?)

variable {α : Type} {M : Meaning α}

/-- What a formula means, when expressions mean something. -/
def meaning (M : Meaning α) : Formula → α
  | leaf n => M.number n.toNat
  | binary operator left right => M.binary operator (left.meaning M) (right.meaning M)
  | power base exponent => M.power (base.meaning M) exponent

/-- Whatever respects numbers, operators and powers is the meaning. -/
theorem meaning_eq {g : Formula → α} (hleaf : ∀ n : Nat, g (leaf n) = M.number n)
    (hbinary : ∀ operator left right, g (binary operator left right) = M.binary operator (g left) (g right))
    (hpower : ∀ base exponent, g (power base exponent) = M.power (g base) exponent) {f : Formula}
    (h : f.PositiveNumbers) : f.meaning M = g f := by
  induction f with
  | leaf n =>
      obtain ⟨m, rfl⟩ := Int.eq_ofNat_of_zero_le (show 0 ≤ n from Int.le_trans (by decide) h)
      exact (hleaf m).symm
  | binary operator left right ihleft ihright => rw [meaning, ihleft h.1, ihright h.2, hbinary]
  | power base exponent ih => rw [meaning, ih h, hpower]

theorem meaning_formulas {f : Formula} (h : f.PositiveNumbers) : f.meaning formulas = f :=
  meaning_eq (g := id) (fun _ => rfl) (fun _ _ _ => rfl) (fun _ _ => rfl) h

theorem meaning_values {f : Formula} (h : f.PositiveNumbers) : f.meaning values = f.value? :=
  meaning_eq (fun _ => rfl) (fun _ _ _ => rfl) (fun _ _ => rfl) h

/-- The level of the text of a formula. -/
def level : Formula → Level
  | leaf _ => .atom
  | binary operator _ _ => .joinedBy operator
  | power _ _ => .power

/-- An operand can stand on either side of its operator, in parentheses unless it binds more tightly. -/
theorem spells_operand {f : Formula} {a : α} (h : Spells M f.level f.chars a) (operator : Operator) :
    Spells M (Level.joinedBy operator).tighter (enclose operator.precedence f.precedence f.chars) a := by
  unfold enclose
  by_cases hloose : f.precedence ≤ operator.precedence
  · rw [if_pos hloose]
    exact h.toSum.enclosed.of_atom _
  · rw [if_neg hloose]
    cases f with
    | leaf n => exact h.of_atom _
    | power base exponent =>
        cases operator with
        | add | subtract => exact Spells.loosely h
        | multiply | divide => exact h
    | binary inner left right =>
        have hlevel : (binary inner left right).level = (Level.joinedBy operator).tighter :=
          Infix.joinedBy_of_lt (Nat.lt_of_not_le hloose)
        rw [← hlevel]
        exact h

theorem spells_base {f : Formula} {a : α} (h : Spells M f.level f.chars a) :
    Spells M .atom (enclose 3 f.precedence f.chars) a := by
  unfold enclose
  by_cases hloose : f.precedence ≤ 3
  · rw [if_pos hloose]
    exact h.toSum.enclosed
  · rw [if_neg hloose]
    cases f with
    | leaf n => exact h
    | power base exponent => exact absurd (Nat.le_refl 3) hloose
    | binary inner left right =>
        have hinner : inner.precedence ≤ 3 := by cases inner <;> decide
        exact absurd hinner hloose

theorem spells_chars (M : Meaning α) {f : Formula} (h : f.PositiveNumbers) :
    Spells M f.level f.chars (f.meaning M) := by
  induction f with
  | leaf n =>
      obtain ⟨m, rfl⟩ := Int.eq_ofNat_of_zero_le (show 0 ≤ n from Int.le_trans (by decide) h)
      have hchars : (leaf m).chars = Nat.toDigits 10 m := by
        show (toString m).toList = Nat.toDigits 10 m
        rw [Nat.toString_eq_ofList_toDigits, String.toList_ofList]
      rw [hchars]
      exact .number m
  | binary operator left right ihleft ihright =>
      exact (spells_operand (ihleft h.1) operator).loosely.joined (spells_operand (ihright h.2) operator)
  | power base exponent ih =>
      have hexponent : (toString exponent).toList = Nat.toDigits 10 exponent := by
        rw [Nat.toString_eq_ofList_toDigits, String.toList_ofList]
      rw [chars, hexponent]
      exact (spells_base (ih h)).raised exponent

theorem denotes_text (M : Meaning α) {f : Formula} (h : f.PositiveNumbers) : Denotes M f.text (f.meaning M) :=
  (spells_chars M h).toSum.denotes

theorem denotes_formula {f : Formula} (h : f.PositiveNumbers) : Denotes formulas f.text f := by
  simpa only [meaning_formulas h] using denotes_text formulas h

theorem denotes_value {f : Formula} (h : f.PositiveNumbers) : Denotes values f.text f.value? := by
  simpa only [meaning_values h] using denotes_text values h

/-- The text of a formula of positive numbers is an expression of the ordinary grammar, which gives the formula back
and no other. Reading the text to its end finds it, and reading it as a number finds its value. So formulas with one
text are one formula. -/
theorem text_gives_formula {f : Formula} (h : f.PositiveNumbers) :
    (∀ g, Denotes formulas f.text g ↔ g = f) ∧ read? formulas f.text = some f ∧
    (∀ v, Denotes values f.text v ↔ v = f.value?) ∧ read? values f.text = some f.value? ∧
    ∀ g : Formula, g.PositiveNumbers → g.text = f.text → g = f := by
  have hformula := denotes_formula h
  have hvalue := denotes_value h
  refine ⟨fun g => ⟨fun hg => hg.unique hformula, ?_⟩, hformula.read?, fun v => ⟨fun hv => hv.unique hvalue, ?_⟩,
    hvalue.read?, fun g hg htext => ?_⟩
  · rintro rfl
    exact hformula
  · rintro rfl
    exact hvalue
  · have hother := denotes_formula hg
    rw [htext] at hother
    exact hother.unique hformula

/-- A difference on the right of a difference and a power of a power keep their parentheses. -/
theorem text_gives_formula_nested :
    let f : Formula := .binary .subtract (.leaf 16) (.binary .subtract (.power (.power (.leaf 2) 3) 2) (.leaf 70))
    f.PositiveNumbers ∧ f.text = "16 - ((2 ^ 3) ^ 2 - 70)" ∧
      read? formulas "16 - ((2 ^ 3) ^ 2 - 70)" = some f ∧ read? values "16 - ((2 ^ 3) ^ 2 - 70)" = some (some 22) := by
  intro f
  have hpositive : f.PositiveNumbers := by
    simp [f, PositiveNumbers]
  have htext : f.text = "16 - ((2 ^ 3) ^ 2 - 70)" := by decide
  obtain ⟨_, hread, _, hvalue, _⟩ := text_gives_formula hpositive
  rw [htext] at hread hvalue
  exact ⟨hpositive, htext, hread, hvalue⟩

end Formula

end CodelCurve
