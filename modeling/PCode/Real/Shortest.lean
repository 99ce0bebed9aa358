import PCode.Real.Nearest

namespace PCode.Real

/-- The number `digits * 10 ^ exponent`. -/
structure Decimal where
  digits : Nat
  exponent : Int
deriving DecidableEq

/-- The numbers that round to a real, as numerators over one denominator. -/
structure Interval where
  low : Nat
  value : Nat
  high : Nat
  denominator : Nat
  closed : Bool

/-- The interval of a finite positive pattern. Its ends halve the gaps to the neighbours, the gap
below a power of two being half as wide, and belong to it if the significand is even. -/
def Interval.ofBits (bits : Nat) : Interval :=
  let (m, e) := significand bits
  let narrow := m == 1 <<< 52 && leastExponent < e
  let up : Nat := 1 <<< e.toNat
  { low := (4 * m - if narrow then 1 else 2) * up
    value := 4 * m * up
    high := (4 * m + 2) * up
    denominator := 4 <<< (-e).toNat
    closed := m % 2 == 0 }

/-- Whether `digits * 10 ^ exponent` lies in the interval. -/
def Interval.holds (i : Interval) (d : Decimal) : Bool :=
  let n := d.digits * Nat.pow 10 d.exponent.toNat * i.denominator
  let scale := Nat.pow 10 (-d.exponent).toNat
  if i.closed then i.low * scale ≤ n && n ≤ i.high * scale
  else i.low * scale < n && n < i.high * scale

/-- The greatest multiple of `10 ^ exponent` that is not above the value. -/
def Interval.below (i : Interval) (exponent : Int) : Decimal :=
  ⟨i.value * Nat.pow 10 (-exponent).toNat / (i.denominator * Nat.pow 10 exponent.toNat), exponent⟩

/-- Of the two multiples of `10 ^ exponent` around the value, the one that lies in the interval; of
two, the nearer, and the upper one if they are equally near. -/
def Interval.pick? (i : Interval) (exponent : Int) : Option Decimal :=
  let lower := i.below exponent
  let upper : Decimal := ⟨lower.digits + 1, exponent⟩
  let twice := 2 * i.value * Nat.pow 10 (-exponent).toNat
  let middle := (2 * lower.digits + 1) * Nat.pow 10 exponent.toNat * i.denominator
  match i.holds lower, i.holds upper with
  | true, true => some (if middle ≤ twice then upper else lower)
  | true, false => some lower
  | false, true => some upper
  | false, false => none

/-- The least `k` with the value below `10 ^ k`, searched from `k` upward. -/
def Interval.magnitude (i : Interval) : Nat → Int → Int
  | 0, k => k
  | fuel + 1, k =>
    if i.value * Nat.pow 10 (-k).toNat < i.denominator * Nat.pow 10 k.toNat then k
    else i.magnitude fuel (k + 1)

/-- The coarsest decimal grid, from `exponent` down, with a point in the interval. -/
def Interval.search (i : Interval) : Nat → Int → Decimal
  | 0, exponent => i.below exponent
  | fuel + 1, exponent =>
    match i.pick? exponent with
    | some d => d
    | none => i.search fuel (exponent - 1)

def Decimal.strip : Nat → Decimal → Decimal
  | 0, d => d
  | fuel + 1, d =>
    if d.digits % 10 == 0 && d.digits != 0 then strip fuel ⟨d.digits / 10, d.exponent + 1⟩ else d

/-- The shortest decimal of a finite positive pattern. A binary64 value lies between `10 ^ (-324)`
and `10 ^ 309`, and seventeen digits always suffice. -/
def shortest (bits : Nat) : Decimal :=
  let i := Interval.ofBits bits
  let k := i.magnitude 640 (-325)
  (i.search 17 (k - 1)).strip 20

end PCode.Real
