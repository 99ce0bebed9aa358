import PCode.Real.Shortest
import PCode.Text.Digits

namespace PCode.Real

/-- The bits of a value as a cell of the machine holds them. -/
def ofBits (negative : Bool) (bits : Nat) : Int64 :=
  (if negative then bits + 1 <<< 63 else bits).toUInt64.toInt64

/-- The value of a numeral with the given digits before and after its point. -/
def ofDigits (negative : Bool) (whole fraction : List Char) : Int64 :=
  ofBits negative (nearest (Text.spelled 10 (whole ++ fraction)) (Nat.pow 10 fraction.length))

/-- Digits with a point, at least one digit on either side. -/
def positional (digits : String) (exponent : Int) : String :=
  if 0 ≤ exponent then digits ++ String.ofList (List.replicate exponent.toNat '0') ++ ".0"
  else
    let places := (-exponent).toNat
    let padded := List.replicate (places + 1 - digits.length) '0' ++ digits.toList
    let whole := padded.length - places
    String.ofList (padded.take whole) ++ "." ++ String.ofList (padded.drop whole)

/-- Digits with a point behind the first, if there are more, and a decimal exponent. -/
def scientific (digits : String) (leading : Int) : String :=
  let rest := digits.toList.drop 1
  let fraction := if rest.isEmpty then "" else "." ++ String.ofList rest
  String.ofList (digits.toList.take 1) ++ fraction ++ "e" ++ toString leading

/-- A decimal: with a point where its leading digit stands for `10 ^ (-4)` to `10 ^ 15`, and with an
exponent outside. -/
def Decimal.render (d : Decimal) : String :=
  let digits := toString d.digits
  let leading : Int := d.exponent + digits.length - 1
  if -4 ≤ leading && leading < 16 then positional digits d.exponent
  else scientific digits leading

def render (value : Int64) : String :=
  let bits := value.toUInt64.toNat
  let magnitude := bits % (1 <<< 63)
  let sign := if 1 <<< 63 ≤ bits then "-" else ""
  if infinityBits < magnitude then "NaN"
  else if magnitude = infinityBits then sign ++ "inf"
  else if magnitude = 0 then sign ++ "0.0"
  else sign ++ (shortest magnitude).render

end PCode.Real
