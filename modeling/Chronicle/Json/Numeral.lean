import Chronicle.Binary64.Shortest
import Chronicle.Binary64.Scaled

/-!
# Numerals

A JSON number as it is written: sign, digits before the point, digits after it, exponent.
A numeral without point and exponent is a whole number as long as 64 bits hold it; every
other one, and `-0`, is a binary floating point number.
-/
namespace Chronicle.Json

def minus : UInt8 := '-'.toUInt8
def plus : UInt8 := '+'.toUInt8
def point : UInt8 := '.'.toUInt8

structure Exponent where
  negative : Bool
  digits : List Digit
  deriving DecidableEq, Repr

namespace Exponent

/-- The sign is always written. -/
def write (e : Exponent) : Bytes :=
  'e'.toUInt8 :: (if e.negative then minus else plus) :: Digits.toBytes e.digits

def value (e : Exponent) : Int :=
  if e.negative then -(Digits.value e.digits : Int) else Digits.value e.digits

end Exponent

structure Numeral where
  negative : Bool
  whole : List Digit
  /-- Empty when there is no point. -/
  fraction : List Digit
  exponent : Option Exponent
  deriving DecidableEq, Repr

namespace Numeral

def ofNat (n : Nat) : Numeral := ⟨false, Digits.ofNat n, [], none⟩

def ofInt (n : Int) : Numeral := ⟨n < 0, Digits.ofNat n.natAbs, [], none⟩

def write (n : Numeral) : Bytes :=
  (if n.negative then [minus] else []) ++ Digits.toBytes n.whole
    ++ (if n.fraction.isEmpty then [] else point :: Digits.toBytes n.fraction)
    ++ (match n.exponent with | some e => e.write | none => [])

/-! ## Reading -/

/-- No digit follows a leading zero, and one digit has to stand before the point. -/
def readWhole? (bytes : Bytes) : Option (List Digit × Bytes) :=
  match Digits.read bytes with
  | ([], _) => none
  | (d :: ds, rest) => if d = Digit.zero ∧ ds ≠ [] then none else some (d :: ds, rest)

def readFraction? : Bytes → Option (List Digit × Bytes)
  | [] => some ([], [])
  | b :: rest =>
    if b = point then
      match Digits.read rest with
      | ([], _) => none
      | read => some read
    else some ([], b :: rest)

def readExponent? : Bytes → Option (Option Exponent × Bytes)
  | [] => some (none, [])
  | b :: rest =>
    if b = 'e'.toUInt8 ∨ b = 'E'.toUInt8 then
      let sign := rest.head?
      let digits := if sign = some minus ∨ sign = some plus then rest.tail else rest
      match Digits.read digits with
      | ([], _) => none
      | (ds, rest) => some (some ⟨sign = some minus, ds⟩, rest)
    else some (none, b :: rest)

def read? (bytes : Bytes) : Option (Numeral × Bytes) := do
  let negative := bytes.head? = some minus
  let (whole, rest) ← readWhole? (if negative then bytes.tail else bytes)
  let (fraction, rest) ← readFraction? rest
  let (exponent, rest) ← readExponent? rest
  some (⟨negative, whole, fraction, exponent⟩, rest)

/-! ## Value -/

def largestWord : Nat := 0xFFFFFFFFFFFFFFFF

/-- Takes digits into a significand as long as it fits 64 bits; also their number. -/
def absorb (significand : Nat) : List Digit → Nat × Nat
  | [] => (significand, 0)
  | d :: ds =>
    let next := 10 * significand + d.val
    if next ≤ largestWord then
      let (s, count) := absorb next ds
      (s, count + 1)
    else (significand, 0)

/-- The numeral as a floating point number, or nothing when it is too large. A whole digit that
no longer fits the significand counts as a power of ten; the digits after the point go on
from the significand so far. -/
def float? (n : Numeral) : Option Binary64 :=
  let (s, taken) := absorb 0 n.whole
  let (s, places) := absorb s n.fraction
  let exponent : Int := (n.whole.length - taken : Nat) - (places : Int)
    + (n.exponent.map Exponent.value).getD 0
  (Binary64.scale? s exponent).map (Binary64.ofMagnitude n.negative)

/-- The whole number a numeral without point and exponent stands for, if 64 bits hold it. -/
def int? (n : Numeral) : Option Int :=
  if n.fraction.isEmpty ∧ n.exponent.isNone then
    let v := Digits.value n.whole
    if n.negative then
      if 0 < v ∧ v ≤ 0x8000000000000000 then some (-(v : Int)) else none
    else if v ≤ largestWord then some v else none
  else none

/-! ## Floating point numbers -/

/-- Exponents from `lowest` to `highest` are written without `e`, and then with at least one
digit on either side of the point. -/
structure Layout where
  lowest : Int
  highest : Int

def layout : Layout := ⟨-5, 15⟩

/-- The numeral of the digits `ds`, the first of which stands for `10 ^ exponent`. -/
def Layout.place (l : Layout) (negative : Bool) (ds : List Digit) (exponent : Int) : Numeral :=
  let orZero := fun (ds : List Digit) => if ds.isEmpty then [Digit.zero] else ds
  if l.lowest ≤ exponent ∧ exponent ≤ l.highest then
    if 0 ≤ exponent then
      let width := exponent.toNat + 1
      let whole := ds.take width
      let whole := whole ++ List.replicate (width - whole.length) Digit.zero
      ⟨negative, whole, orZero (ds.drop width), none⟩
    else
      ⟨negative, [Digit.zero],
        List.replicate ((-exponent).toNat - 1) Digit.zero ++ orZero ds, none⟩
  else
    ⟨negative, ds.take 1, ds.drop 1, some ⟨exponent < 0, Digits.ofNat exponent.natAbs⟩⟩

def withoutTrailingZeros (ds : List Digit) : List Digit :=
  (ds.reverse.dropWhile (· = Digit.zero)).reverse

/-- The shortest numeral that stands for a finite number. -/
def ofFloat (x : Binary64) : Numeral :=
  if x.magnitude = 0 then layout.place x.isNegative [Digit.zero] 0
  else
    let d := Binary64.shortest x.magnitude
    let ds := Digits.ofNat d.n
    layout.place x.isNegative (withoutTrailingZeros ds) (d.exponent + ds.length - 1)

end Numeral
end Chronicle.Json
