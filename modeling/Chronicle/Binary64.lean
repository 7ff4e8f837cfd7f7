import Chronicle.Text.Digits

/-!
# Binary floating point numbers

A 64-bit word holds a sign, eleven exponent bits and fifty-two fraction bits. Everything here
is exact arithmetic on natural numbers: a finite word stands for `± m * 2 ^ q`, and a quotient
of naturals is rounded to the nearest word, a tie going to the even one.
-/
namespace Chronicle

structure Binary64 where
  bits : UInt64
  deriving DecidableEq, Repr, Inhabited

namespace Binary64

/-- What the sign bit stands for. -/
def signValue : Nat := 0x8000000000000000

/-- How many fractions there are with each exponent. -/
def fractions : Nat := 0x10000000000000

def isNegative (x : Binary64) : Bool := signValue ≤ x.bits.toNat

/-- The word without its sign. -/
def magnitude (x : Binary64) : Nat := x.bits.toNat % signValue

def infinite : Nat := 0x7FF * fractions

def isFinite (x : Binary64) : Bool := x.magnitude < infinite

def ofMagnitude (negative : Bool) (magnitude : Nat) : Binary64 :=
  ⟨UInt64.ofNat (magnitude + if negative then signValue else 0)⟩

/-- A magnitude as `m * 2 ^ (e - 1074)`, given as `(m, e)`. -/
def parts (magnitude : Nat) : Nat × Nat :=
  let exponent := magnitude / fractions
  let fraction := magnitude % fractions
  if exponent = 0 then (fraction, 0) else (fractions + fraction, exponent - 1)

/-- `num / den` rounded to a whole number, a tie to the even one. -/
def roundQuotient (num den : Nat) : Nat :=
  let q := num / den
  let r := num % den
  if 2 * r < den then q
  else if den < 2 * r then q + 1
  else if q % 2 = 0 then q else q + 1

/-- `(num / den) * 2 ^ 1074 / 2 ^ e` rounded. -/
def scaled (num den e : Nat) : Nat := roundQuotient (num <<< 1074) (den <<< e)

/-- The magnitude nearest to `num / den`; what rounds to `2 ^ 1024` or more is infinite. -/
def nearest (num den : Nat) : Nat :=
  let top := ((num <<< 1074) / den).log2
  let e := top - 52
  min infinite (e * fractions + scaled num den e)

def ofNat (n : Nat) : Nat := nearest n 1

/-- The product of two finite magnitudes, rounded. -/
def mul (x y : Nat) : Nat :=
  let (m, e) := parts x
  let (n, f) := parts y
  nearest ((m * n) <<< (e + f)) (1 <<< 2148)

/-- The quotient of two finite magnitudes, rounded; the second is not zero. -/
def div (x y : Nat) : Nat :=
  let (m, e) := parts x
  let (n, f) := parts y
  nearest (m <<< e) (n <<< f)

end Binary64
end Chronicle
