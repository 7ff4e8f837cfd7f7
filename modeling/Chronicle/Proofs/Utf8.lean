import Mathlib
import Chronicle.Text.Utf8

/-!
# Text reads back

The bytes of a text are read as the text they were written for. A character takes one to four
bytes, and its reading follows them one by one.
-/
namespace Chronicle.Utf8

/-- A character is no surrogate and lies within the range of characters. -/
theorem char_range (c : Char) : c.toNat < 0xD800 ∨ 0xE000 ≤ c.toNat ∧ c.toNat < 0x110000 := by
  have h := c.valid
  simp only [UInt32.isValidChar, Nat.isValidChar] at h
  change c.toNat < _ ∨ _ < c.toNat ∧ c.toNat < _ at h
  omega

theorem toNat_ofNat_of_lt {k : Nat} (h : k < 256) : (UInt8.ofNat k).toNat = k := by
  rw [UInt8.toNat_ofNat']
  omega

theorem toNat_continuation (n : Nat) : (continuation n).toNat = 0x80 + n % 0x40 :=
  toNat_ofNat_of_lt (by omega)

/-- The byte that ends a character. -/
theorem next_last {p : Partial} {n : Nat} (hmissing : p.missing = 1) (hlow : p.low = 0x80)
    (hhigh : p.high = 0xBF) (hvalue : p.value = n / 0x40) :
    p.next (continuation n) = .whole (Char.ofNat n) := by
  have hrange : p.low ≤ continuation n ∧ continuation n ≤ p.high := by
    rw [hlow, hhigh, UInt8.le_iff_toNat_le, UInt8.le_iff_toNat_le, toNat_continuation]
    constructor
    · show 0x80 ≤ _; omega
    · show _ ≤ 0xBF; omega
  have hsum : p.value * 0x40 + ((continuation n).toNat - 0x80) = n := by
    rw [toNat_continuation, hvalue]
    omega
  simp only [Partial.next, if_pos hrange, hsum, hmissing, le_refl, if_true]

/-- A byte in the middle of a character, within the range that the byte before it left. -/
theorem next_more {p : Partial} {n : Nat} (hmissing : 1 < p.missing)
    (hlow : p.low.toNat ≤ 0x80 + n % 0x40) (hhigh : 0x80 + n % 0x40 ≤ p.high.toNat)
    (hvalue : p.value = n / 0x40) :
    p.next (continuation n) = .more ⟨p.missing - 1, 0x80, 0xBF, n, p.length + 1⟩ := by
  have hrange : p.low ≤ continuation n ∧ continuation n ≤ p.high := by
    rw [UInt8.le_iff_toNat_le, UInt8.le_iff_toNat_le, toNat_continuation]
    exact ⟨hlow, hhigh⟩
  have hsum : p.value * 0x40 + ((continuation n).toNat - 0x80) = n := by
    rw [toNat_continuation, hvalue]
    omega
  simp only [Partial.next, if_pos hrange, hsum, if_neg (Nat.not_le.mpr hmissing)]

/-- What the first byte of a three-byte character leaves open. -/
theorem first_three {n : Nat} (hlow : 0x800 ≤ n) (hhigh : n < 0x10000)
    (hchar : n < 0xD800 ∨ 0xE000 ≤ n) :
    ∃ p, first (UInt8.ofNat (0xE0 + n / 0x1000)) = .more p ∧ p.missing = 2 ∧
      p.value = n / 0x1000 ∧ p.low.toNat ≤ 0x80 + n / 0x40 % 0x40 ∧
      0x80 + n / 0x40 % 0x40 ≤ p.high.toNat := by
  have hbyte : (UInt8.ofNat (0xE0 + n / 0x1000)).toNat = 0xE0 + n / 0x1000 :=
    toNat_ofNat_of_lt (by omega)
  simp only [first, hbyte]
  rw [if_neg (by omega), if_neg (by omega), if_neg (by omega)]
  by_cases hfirst : n / 0x1000 = 0
  · rw [if_pos (by omega)]
    refine ⟨_, rfl, rfl, hfirst.symm, ?_, ?_⟩
    · show 0xA0 ≤ _; omega
    · show _ ≤ 0xBF; omega
  · rw [if_neg (by omega)]
    by_cases hlast : n / 0x1000 = 0xD
    · rw [if_pos (by omega)]
      refine ⟨_, rfl, rfl, hlast.symm, ?_, ?_⟩
      · show 0x80 ≤ _; omega
      · show _ ≤ 0x9F; omega
    · rw [if_neg (by omega), if_pos (by omega)]
      refine ⟨_, rfl, rfl, by show 0xE0 + n / 0x1000 - 0xE0 = _; omega, ?_, ?_⟩
      · show 0x80 ≤ _; omega
      · show _ ≤ 0xBF; omega

/-- What the first byte of a four-byte character leaves open. -/
theorem first_four {n : Nat} (hlow : 0x10000 ≤ n) (hhigh : n < 0x110000) :
    ∃ p, first (UInt8.ofNat (0xF0 + n / 0x40000)) = .more p ∧ p.missing = 3 ∧
      p.value = n / 0x40000 ∧ p.low.toNat ≤ 0x80 + n / 0x1000 % 0x40 ∧
      0x80 + n / 0x1000 % 0x40 ≤ p.high.toNat := by
  have hbyte : (UInt8.ofNat (0xF0 + n / 0x40000)).toNat = 0xF0 + n / 0x40000 :=
    toNat_ofNat_of_lt (by omega)
  simp only [first, hbyte]
  rw [if_neg (by omega), if_neg (by omega), if_neg (by omega), if_neg (by omega),
    if_neg (by omega), if_neg (by omega)]
  by_cases hfirst : n / 0x40000 = 0
  · rw [if_pos (by omega)]
    refine ⟨_, rfl, rfl, hfirst.symm, ?_, ?_⟩
    · show 0x90 ≤ _; omega
    · show _ ≤ 0xBF; omega
  · rw [if_neg (by omega)]
    by_cases hlast : n / 0x40000 < 4
    · rw [if_pos (by omega)]
      refine ⟨_, rfl, rfl, by show 0xF0 + n / 0x40000 - 0xF0 = _; omega, ?_, ?_⟩
      · show 0x80 ≤ _; omega
      · show _ ≤ 0xBF; omega
    · rw [if_neg (by omega), if_pos (by omega)]
      refine ⟨_, rfl, rfl, by show 4 = _; omega, ?_, ?_⟩
      · show 0x80 ≤ _; omega
      · show _ ≤ 0x8F; omega

/-- A written character is read before anything that follows it. -/
theorem decodeFrom_encodeChar (c : Char) (offset : Nat) (rest : Bytes) :
    ∃ next, decodeFrom offset none (encodeChar c ++ rest) =
      (c :: ·) <$> decodeFrom next none rest := by
  have hrange := char_range c
  generalize hn : c.toNat = n at hrange
  have hc : Char.ofNat n = c := hn ▸ Char.ofNat_toNat c
  unfold encodeChar
  simp only [hn]
  by_cases h1 : n < 0x80
  · have hfirst : first (UInt8.ofNat n) = .whole c := by
      simp only [first, toNat_ofNat_of_lt (show n < 256 by omega), if_pos h1, hc]
    exact ⟨offset + 1, by simp only [if_pos h1, List.cons_append, List.nil_append, decodeFrom, hfirst]⟩
  rw [if_neg h1]
  by_cases h2 : n < 0x800
  · have hfirst : first (UInt8.ofNat (0xC0 + n / 0x40)) = .more ⟨1, 0x80, 0xBF, n / 0x40, 1⟩ := by
      simp only [first, toNat_ofNat_of_lt (show 0xC0 + n / 0x40 < 256 by omega)]
      rw [if_neg (by omega), if_neg (by omega), if_pos (by omega), Nat.add_sub_cancel_left]
    have hnext := next_last (p := ⟨1, 0x80, 0xBF, n / 0x40, 1⟩) (n := n) rfl rfl rfl rfl
    rw [hc] at hnext
    exact ⟨offset + 1 + 1, by
      simp only [if_pos h2, List.cons_append, List.nil_append, decodeFrom, hfirst, hnext]⟩
  rw [if_neg h2]
  by_cases h3 : n < 0x10000
  · obtain ⟨p, hfirst, hmissing, hvalue, hlow, hhigh⟩ :=
      first_three (n := n) (by omega) h3 (by omega)
    have hmiddle := next_more (p := p) (n := n / 0x40) (by omega) hlow hhigh
      (by rw [hvalue, Nat.div_div_eq_div_mul])
    have hlast := next_last (p := ⟨p.missing - 1, 0x80, 0xBF, n / 0x40, p.length + 1⟩) (n := n)
      (by show p.missing - 1 = 1; omega) rfl rfl rfl
    rw [hc] at hlast
    exact ⟨offset + 1 + 1 + 1, by
      simp only [if_pos h3, List.cons_append, List.nil_append, decodeFrom, hfirst, hmiddle, hlast]⟩
  · rw [if_neg h3]
    obtain ⟨p, hfirst, hmissing, hvalue, hlow, hhigh⟩ :=
      first_four (n := n) (by omega) (by omega)
    have hsecond := next_more (p := p) (n := n / 0x1000) (by omega) hlow hhigh
      (by rw [hvalue, Nat.div_div_eq_div_mul])
    have hthird := next_more (p := ⟨p.missing - 1, 0x80, 0xBF, n / 0x1000, p.length + 1⟩)
      (n := n / 0x40) (by show 1 < p.missing - 1; omega)
      (by show 0x80 ≤ _; omega) (by show _ ≤ 0xBF; omega)
      (by show n / 0x1000 = _; rw [Nat.div_div_eq_div_mul])
    have hlast := next_last
      (p := ⟨p.missing - 1 - 1, 0x80, 0xBF, n / 0x40, p.length + 1 + 1⟩) (n := n)
      (by show p.missing - 1 - 1 = 1; omega) rfl rfl rfl
    rw [hc] at hlast
    exact ⟨offset + 1 + 1 + 1 + 1, by
      simp only [List.cons_append, List.nil_append, decodeFrom, hfirst, hsecond, hthird, hlast]⟩

theorem decodeFrom_flatMap (cs : List Char) (offset : Nat) :
    decodeFrom offset none (cs.flatMap encodeChar) = .ok cs := by
  induction cs generalizing offset with
  | nil => rfl
  | cons c cs ih =>
    obtain ⟨next, h⟩ := decodeFrom_encodeChar c offset (cs.flatMap encodeChar)
    rw [List.flatMap_cons, h, ih]
    rfl

theorem decode_encode (text : String) : decode (encode text) = .ok text := by
  rw [decode, encode, decodeFrom_flatMap]
  show Except.ok (String.ofList text.toList) = _
  rw [String.ofList_toList]

end Chronicle.Utf8
