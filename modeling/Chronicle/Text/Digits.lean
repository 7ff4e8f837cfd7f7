import Chronicle.Bytes

/-!
# Decimal digits

A number's digits, most significant first, and the number they stand for.
-/
namespace Chronicle

abbrev Digit := Fin 10

namespace Digit

def zero : Digit := Fin.ofNat 10 0

def toByte (d : Digit) : UInt8 := UInt8.ofNat (48 + d.val)

def ofByte? (b : UInt8) : Option Digit :=
  if 48 ≤ b.toNat ∧ b.toNat ≤ 57 then some (Fin.ofNat 10 (b.toNat - 48)) else none

theorem ofByte?_toByte : ∀ d : Digit, ofByte? d.toByte = some d := by decide

end Digit

namespace Digits

def value (digits : List Digit) : Nat := digits.foldl (fun n d => 10 * n + d.val) 0

/-- Puts the digits of `n` before `tail`; `fuel` bounds their number. -/
def prepend : Nat → Nat → List Digit → List Digit
  | 0, _, tail => tail
  | fuel + 1, n, tail =>
    if n < 10 then Fin.ofNat 10 n :: tail
    else prepend fuel (n / 10) (Fin.ofNat 10 (n % 10) :: tail)

/-- The digits of `n`, without leading zeros; zero has the one digit 0. -/
def ofNat (n : Nat) : List Digit := prepend (n + 1) n []

def toBytes (digits : List Digit) : Bytes := digits.map Digit.toByte

/-- The digits at the front of a byte string, and what follows them. -/
def read : Bytes → List Digit × Bytes
  | [] => ([], [])
  | b :: rest =>
    match Digit.ofByte? b with
    | some d => (d :: (read rest).1, (read rest).2)
    | none => ([], b :: rest)

theorem foldl_prepend (fuel n : Nat) (tail : List Digit) (h : n < fuel) :
    (prepend fuel n tail).foldl (fun n d => 10 * n + d.val) 0 =
      tail.foldl (fun n d => 10 * n + d.val) n := by
  induction fuel generalizing n tail with
  | zero => omega
  | succ fuel ih =>
    by_cases hn : n < 10
    · simp [prepend, hn, Fin.ofNat, Nat.mod_eq_of_lt hn]
    · have hlt : n / 10 < fuel := by omega
      have hsum : 10 * (n / 10) + n % 10 = n := by omega
      simp [prepend, hn, ih (n / 10) _ hlt, Fin.ofNat, hsum]

theorem value_ofNat (n : Nat) : value (ofNat n) = n := by
  simp [value, ofNat, foldl_prepend (n + 1) n [] (by omega)]

theorem read_toBytes_append (digits : List Digit) (rest : Bytes)
    (h : ∀ b ∈ rest.head?, Digit.ofByte? b = none) :
    read (toBytes digits ++ rest) = (digits, rest) := by
  induction digits with
  | nil =>
    cases rest with
    | nil => rfl
    | cons b rest => simp [toBytes, read, h b (by simp)]
  | cons d digits ih =>
    simp only [toBytes, List.map_cons, List.cons_append, read, Digit.ofByte?_toByte]
    simp only [toBytes] at ih
    rw [ih]

end Digits
end Chronicle
