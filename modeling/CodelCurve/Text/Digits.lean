/-! Numbers written in digits. -/

namespace CodelCurve.Text

def isDigit (c : Char) : Bool := '0' ≤ c && c ≤ '9'

/-- The value of a digit, up to fifteen and in letters of either case. -/
def digitValue? (c : Char) : Option Nat :=
  if isDigit c then some (c.toNat - '0'.toNat)
  else if 'a' ≤ c && c ≤ 'f' then some (c.toNat - 'a'.toNat + 10)
  else if 'A' ≤ c && c ≤ 'F' then some (c.toNat - 'A'.toNat + 10)
  else none

/-- The number that decimal digits stand for. -/
def decimal (digits : List Char) : Nat := digits.foldl (fun n c => n * 10 + (c.toNat - '0'.toNat)) 0

/-- The number that digits of a base up to sixteen stand for. There has to be at least one. -/
def numberIn? (base : Nat) (digits : List Char) : Option Nat :=
  if digits.isEmpty then none
  else digits.foldlM (fun n c => ((digitValue? c).filter (· < base)).map fun d => n * base + d) 0

/-- The integer of decimal digits after an optional sign. -/
def integer? : List Char → Option Int
  | '+' :: digits => (numberIn? 10 digits).map fun n => (n : Int)
  | '-' :: digits => (numberIn? 10 digits).map fun n => -(n : Int)
  | digits => (numberIn? 10 digits).map fun n => (n : Int)

end CodelCurve.Text
