import Mathlib
import Chronicle.Id

/-!
# Numbers in keys

A number written most significant byte first can be read back, and byte strings of one width
stand in the order of the numbers they spell.
-/
namespace Chronicle.Bytes

theorem bigEndian_succ (width n : Nat) :
    bigEndian (width + 1) n = bigEndian width (n / 256) ++ [UInt8.ofNat n] := by
  simp [bigEndian, littleEndian]

theorem bigEndian_inj {width m n : Nat} (hm : m < capacity width) (hn : n < capacity width) :
    bigEndian width m = bigEndian width n ↔ m = n := by
  constructor
  · intro h
    have hvalue := congrArg bigEndianValue h
    rwa [bigEndianValue_bigEndian, bigEndianValue_bigEndian, Nat.mod_eq_of_lt hm,
      Nat.mod_eq_of_lt hn] at hvalue
  · rintro rfl
    rfl

theorem bigEndianValue_concat (bytes : Bytes) (b : UInt8) :
    bigEndianValue (bytes ++ [b]) = b.toNat + 256 * bigEndianValue bytes := by
  simp [bigEndianValue, littleEndianValue]

theorem bigEndianValue_lt (bytes : Bytes) : bigEndianValue bytes < capacity bytes.length := by
  have h := littleEndianValue_lt bytes.reverse
  rwa [List.length_reverse] at h

theorem toNat_lt_capacity_two (n : UInt16) : n.toNat < capacity 2 := n.toNat_lt

theorem toNat_lt_capacity_eight (n : UInt64) : n.toNat < capacity 8 := n.toNat_lt

theorem toNat_byte_lt_capacity_two (n : UInt8) : n.toNat < capacity 2 :=
  n.toNat_lt.trans (by decide)

/-! ## Order -/

theorem compare_cons (a b : UInt8) (xs ys : Bytes) :
    compare (a :: xs) (b :: ys) = (compare a b).then (compare xs ys) :=
  List.compareLex_cons_cons

/-- Parts of equal length are compared one after the other. -/
theorem compare_append {xs ys : Bytes} (us vs : Bytes) (h : xs.length = ys.length) :
    compare (xs ++ us) (ys ++ vs) = (compare xs ys).then (compare us vs) := by
  induction xs generalizing ys with
  | nil =>
    have hys : ys = [] := List.length_eq_zero_iff.mp h.symm
    subst hys
    rfl
  | cons a xs ih =>
    cases ys with
    | nil => simp at h
    | cons b ys =>
      have hlen : xs.length = ys.length := by simpa using h
      rw [List.cons_append, List.cons_append, compare_cons, compare_cons, ih hlen,
        Ordering.then_assoc]

theorem compare_div_mod (m n : Nat) :
    compare m n = (compare (m / 256) (n / 256)).then (compare (m % 256) (n % 256)) := by
  rcases Nat.lt_trichotomy (m / 256) (n / 256) with h | h | h
  · rw [Nat.compare_eq_lt.mpr h, Nat.compare_eq_lt.mpr (by omega)]
    rfl
  · rw [Nat.compare_eq_eq.mpr h, Ordering.then]
    rcases Nat.lt_trichotomy (m % 256) (n % 256) with hmod | hmod | hmod
    · rw [Nat.compare_eq_lt.mpr hmod, Nat.compare_eq_lt.mpr (by omega)]
    · rw [Nat.compare_eq_eq.mpr hmod, Nat.compare_eq_eq.mpr (by omega)]
    · rw [Nat.compare_eq_gt.mpr hmod, Nat.compare_eq_gt.mpr (by omega)]
  · rw [Nat.compare_eq_gt.mpr h, Nat.compare_eq_gt.mpr (by omega)]
    rfl

theorem compare_byte (m n : Nat) :
    compare [UInt8.ofNat m] [UInt8.ofNat n] = compare (m % 256) (n % 256) := by
  rw [compare_cons, show compare ([] : Bytes) [] = .eq from rfl, Ordering.then_eq]
  show compareOfLessAndEq _ _ = compareOfLessAndEq _ _
  simp only [compareOfLessAndEq, UInt8.lt_iff_toNat_lt, ← UInt8.toNat_inj, UInt8.toNat_ofNat']

/-- Byte strings of one width stand in the order of their numbers. -/
theorem compare_bigEndian {width m n : Nat} (hm : m < capacity width) (hn : n < capacity width) :
    compare (bigEndian width m) (bigEndian width n) = compare m n := by
  induction width generalizing m n with
  | zero =>
    have hmn : m = n := by simp only [capacity] at hm hn; omega
    subst hmn
    rw [Nat.compare_eq_eq.mpr rfl]
    rfl
  | succ width ih =>
    have hm' : m / 256 < capacity width := by simp only [capacity] at hm; omega
    have hn' : n / 256 < capacity width := by simp only [capacity] at hn; omega
    rw [bigEndian_succ, bigEndian_succ, compare_append _ _ (by simp), ih hm' hn', compare_byte,
      ← compare_div_mod]

end Chronicle.Bytes
