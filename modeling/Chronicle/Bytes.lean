/-!
# Byte strings

Keys, stored values and payloads are lists of bytes. A number of fixed width is
written either least significant byte first or most significant byte first.
-/
namespace Chronicle

abbrev Bytes := List UInt8

namespace Bytes

/-- The `width` low bytes of `n`, least significant first. -/
def littleEndian : Nat → Nat → Bytes
  | 0, _ => []
  | width + 1, n => UInt8.ofNat n :: littleEndian width (n / 256)

/-- The number with the given bytes, least significant first. -/
def littleEndianValue : Bytes → Nat
  | [] => 0
  | b :: rest => b.toNat + 256 * littleEndianValue rest

/-- The `width` low bytes of `n`, most significant first. -/
def bigEndian (width n : Nat) : Bytes := (littleEndian width n).reverse

/-- The number with the given bytes, most significant first. -/
def bigEndianValue (bytes : Bytes) : Nat := littleEndianValue bytes.reverse

/-- How many numbers `width` bytes can tell apart. -/
def capacity : Nat → Nat
  | 0 => 1
  | width + 1 => 256 * capacity width

@[simp] theorem length_littleEndian (width n : Nat) : (littleEndian width n).length = width := by
  induction width generalizing n with
  | zero => rfl
  | succ width ih => simp [littleEndian, ih]

@[simp] theorem length_bigEndian (width n : Nat) : (bigEndian width n).length = width := by
  simp [bigEndian]

theorem littleEndianValue_littleEndian (width n : Nat) :
    littleEndianValue (littleEndian width n) = n % capacity width := by
  induction width generalizing n with
  | zero => simp [littleEndian, littleEndianValue, capacity, Nat.mod_one]
  | succ width ih =>
    rw [littleEndian, littleEndianValue, ih, UInt8.toNat_ofNat', capacity, Nat.mod_mul]

theorem bigEndianValue_bigEndian (width n : Nat) :
    bigEndianValue (bigEndian width n) = n % capacity width := by
  simp [bigEndianValue, bigEndian, littleEndianValue_littleEndian]

theorem littleEndianValue_lt (bytes : Bytes) : littleEndianValue bytes < capacity bytes.length := by
  induction bytes with
  | nil => simp [littleEndianValue, capacity]
  | cons b rest ih =>
    have hb := b.toNat_lt
    rw [littleEndianValue, List.length_cons, capacity]
    omega

theorem littleEndian_littleEndianValue (bytes : Bytes) :
    littleEndian bytes.length (littleEndianValue bytes) = bytes := by
  induction bytes with
  | nil => rfl
  | cons b rest ih =>
    have hb := b.toNat_lt
    have hmod : (b.toNat + 256 * littleEndianValue rest) % 256 = b.toNat := by omega
    have hdiv : (b.toNat + 256 * littleEndianValue rest) / 256 = littleEndianValue rest := by omega
    rw [List.length_cons, littleEndianValue, littleEndian, hdiv, ih]
    congr 1
    apply UInt8.toNat_inj.1
    rw [UInt8.toNat_ofNat']
    exact hmod

theorem bigEndian_bigEndianValue (bytes : Bytes) :
    bigEndian bytes.length (bigEndianValue bytes) = bytes := by
  have h := littleEndian_littleEndianValue bytes.reverse
  rw [List.length_reverse] at h
  simp [bigEndian, bigEndianValue, h]

end Bytes
end Chronicle
