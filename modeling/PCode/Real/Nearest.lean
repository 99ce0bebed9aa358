namespace PCode.Real

/-- The pattern of positive infinity; patterns below it are the finite values, in order. -/
def infinityBits : Nat := 0x7ff <<< 52

def leastExponent : Int := -1074

/-- `num / den * 2 ^ (-exponent)`, rounded to the nearest integer, a half to the even one. -/
def roundScaled (num den : Nat) (exponent : Int) : Nat :=
  let num := num <<< (-exponent).toNat
  let den := den <<< exponent.toNat
  let floor := num / den
  let twice := 2 * (num % den)
  if den < twice || (twice == den && floor % 2 == 1) then floor + 1 else floor

/-- The binary exponent at which `num / den` has 53 binary digits before the point, or the least
exponent if that is greater. -/
def binaryExponent (num den : Nat) : Int :=
  let guess := Int.ofNat (Nat.log2 num) - Int.ofNat (Nat.log2 den) - 53
  let exponent :=
    if den <<< 53 <<< guess.toNat ≤ num <<< (-guess).toNat then guess + 1 else guess
  max exponent leastExponent

/-- The pattern of the value nearest to `num / den`, a half going to the even pattern; a fraction
beyond the greatest finite value gives infinity. -/
def nearest (num den : Nat) : Nat :=
  if num = 0 then 0
  else
    let exponent := binaryExponent num den
    min ((exponent - leastExponent).toNat <<< 52 + roundScaled num den exponent) infinityBits

/-- A finite positive pattern as significand and binary exponent. -/
def significand (bits : Nat) : Nat × Int :=
  let field : Nat := bits >>> 52
  let fraction : Nat := bits % (1 <<< 52)
  if field = 0 then (fraction, leastExponent)
  else (1 <<< 52 + fraction, leastExponent + Int.ofNat (field - 1))

end PCode.Real
