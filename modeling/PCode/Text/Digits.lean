namespace PCode.Text

def digitValue (c : Char) : Nat :=
  if c.isDigit then c.toNat - '0'.toNat
  else if 'a' ≤ c then c.toNat - 'a'.toNat + 10
  else c.toNat - 'A'.toNat + 10

def spelled (radix : Nat) (digits : List Char) : Nat :=
  digits.foldl (fun n c => radix * n + digitValue c) 0

/-- Splits a sign off a numeral: whether it is negative, and the rest. -/
def splitSign : List Char → Bool × List Char
  | '-' :: rest => (true, rest)
  | '+' :: rest => (false, rest)
  | digits => (false, digits)

/-- The number that a sign and digits spell, if it fits a signed 64-bit word. -/
def word? (radix : Nat) (negative : Bool) (digits : List Char) : Option Int64 :=
  let magnitude : Int := spelled radix digits
  let value := if negative then -magnitude else magnitude
  if -0x8000000000000000 ≤ value && value < 0x8000000000000000 then some (Int64.ofInt value)
  else none

end PCode.Text
