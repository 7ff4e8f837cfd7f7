import Chronicle.Binary64

/-!
# Scaled significands

A decimal is read as a significand that fits 64 bits, rounded to a word, and then multiplied
or divided once by a power of ten that is itself rounded. Exponents below `-308` are first
taken up in steps of 308. The result is near the decimal's value but not always nearest.
-/
namespace Chronicle.Binary64

def largestPower : Nat := 308

def powerOfTen (n : Nat) : Nat := ofNat (Nat.pow 10 n)

/-- Divides by `10 ^ 308` up to `count` times; zero stays zero. -/
def lowered : Nat → Nat → Nat
  | 0, x => x
  | count + 1, x => if x = 0 then 0 else lowered count (div x (powerOfTen largestPower))

/-- The magnitude of `significand * 10 ^ exponent`, or nothing when it is too large. -/
def scale? (significand : Nat) (exponent : Int) : Option Nat :=
  let x := ofNat significand
  if x = 0 then some 0
  else if 0 ≤ exponent then
    if exponent ≤ largestPower then
      let y := mul x (powerOfTen exponent.toNat)
      if y < infinite then some y else none
    else none
  else
    let n := (-exponent).toNat
    let steps := (n - 1) / largestPower
    let y := lowered steps x
    if y = 0 then some 0 else some (div y (powerOfTen (n - steps * largestPower)))

end Chronicle.Binary64
