import Chronicle.Binary64

/-!
# Shortest decimal form

The decimal with the fewest digits among those that round to a given word, and among these
the nearest one. Each number of digits gives a decimal grid; only the two grid points around
the exact value have to be tested, since an interval that contains any grid point contains
one of these.
-/
namespace Chronicle.Binary64

/-- The reals that round to a magnitude, as `low / den ≤ mid / den ≤ high / den`. The two ends
belong to it when `closed`. -/
structure Interval where
  low : Nat
  mid : Nat
  high : Nat
  den : Nat
  closed : Bool

/-- Half a unit on either side; below a power of two the unit is half as wide. -/
def interval (magnitude : Nat) : Interval :=
  let (m, e) := parts magnitude
  let unit := 1 <<< e
  let below := if m = fractions ∧ 0 < e then 1 else 2
  ⟨(4 * m - below) * unit, 4 * m * unit, (4 * m + 2) * unit, 1 <<< 1076, m % 2 = 0⟩

def Interval.holds (i : Interval) (num den : Nat) : Bool :=
  if i.closed then i.low * den ≤ num * i.den ∧ num * i.den ≤ i.high * den
  else i.low * den < num * i.den ∧ num * i.den < i.high * den

/-- The exponent of the leading decimal digit of `num / den`. -/
def leadingExponent (num den : Nat) : Int :=
  if den ≤ num then ((Digits.ofNat (num / den)).length : Int) - 1
  else -((Digits.ofNat ((den - 1) / num)).length : Int)

/-- The value `n * 10 ^ exponent`. -/
structure Decimal where
  n : Nat
  exponent : Int
  deriving DecidableEq, Repr

def Decimal.num (d : Decimal) : Nat := d.n * Nat.pow 10 d.exponent.toNat
def Decimal.den (d : Decimal) : Nat := Nat.pow 10 (-d.exponent).toNat

/-- The point of the grid `10 ^ exponent` inside the interval that is nearest to its middle;
of two equally near ones the even one. -/
def Interval.gridPoint? (i : Interval) (exponent : Int) : Option Decimal :=
  let up := Nat.pow 10 exponent.toNat
  let down := Nat.pow 10 (-exponent).toNat
  let n := i.mid * down / (i.den * up)
  let lower : Decimal := ⟨n, exponent⟩
  let upper : Decimal := ⟨n + 1, exponent⟩
  let twice := 2 * i.mid * down
  let middle := (2 * n + 1) * (i.den * up)
  match i.holds lower.num lower.den, i.holds upper.num upper.den with
  | false, false => none
  | true, false => some lower
  | false, true => some upper
  | true, true =>
    if twice < middle then some lower
    else if middle < twice then some upper
    else if n % 2 = 0 then some lower else some upper

/-- The first grid with a point, from `digits` digits on, trying `count` grids. -/
def Interval.firstGridPoint? (i : Interval) (top : Int) : Nat → Nat → Option Decimal
  | 0, _ => none
  | count + 1, digits =>
    match i.gridPoint? (top - digits + 1) with
    | some d => some d
    | none => i.firstGridPoint? top count (digits + 1)

/-- Seventeen digits always suffice. -/
def shortest (magnitude : Nat) : Decimal :=
  let i := interval magnitude
  ((i.firstGridPoint? (leadingExponent i.mid i.den) 17 1).getD ⟨0, 0⟩)

end Chronicle.Binary64
