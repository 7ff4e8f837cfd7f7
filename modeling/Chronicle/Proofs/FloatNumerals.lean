import Mathlib
import Chronicle.Proofs.Numerals

/-!
# Floating point numbers as numerals

The numeral of a number has the value of its shortest decimal. Reading it back rounds three times,
for the significand, for the power of ten and for their product or quotient, and so need not give
the number again. It does when the first two are not rounded: with at most fifteen digits and a
power of ten of at most twenty-two.
-/
namespace Chronicle.Json.Numeral

/-- The number that all digits of a numeral make up, without the point. -/
def significand (n : Numeral) : Nat := Digits.value (n.whole ++ n.fraction)

/-- The power of ten that the significand is multiplied with. -/
def scale (n : Numeral) : Int := (n.exponent.map Exponent.value).getD 0 - n.fraction.length

theorem absorb_eq {s : Nat} {ds : List Digit}
    (h : ds.foldl (fun n d => 10 * n + d.val) s ≤ largestWord) :
    absorb s ds = (ds.foldl (fun n d => 10 * n + d.val) s, ds.length) := by
  induction ds generalizing s with
  | nil => rfl
  | cons d ds ih =>
    rw [List.foldl_cons] at h
    have hnext : 10 * s + d.val ≤ largestWord := by
      rw [Digits.foldl_digits] at h
      have hle : 10 * s + d.val ≤ (10 * s + d.val) * 10 ^ ds.length :=
        Nat.le_mul_of_pos_right _ (Nat.pow_pos (by decide))
      omega
    simp only [absorb, hnext, if_true, ih h, List.foldl_cons, List.length_cons]

/-- Digits that fit 64 bits are all taken into the significand. -/
theorem float?_eq {n : Numeral} (h : n.significand ≤ largestWord) :
    n.float? = (Binary64.scale? n.significand n.scale).map (Binary64.ofMagnitude n.negative) := by
  have hfold : n.significand =
      n.fraction.foldl (fun n d => 10 * n + d.val) (Digits.value n.whole) := by
    rw [significand, Digits.value, List.foldl_append]
    rfl
  have hwhole : Digits.value n.whole ≤ largestWord := by
    rw [significand, Digits.value_append] at h
    have hle : Digits.value n.whole ≤ Digits.value n.whole * 10 ^ n.fraction.length :=
      Nat.le_mul_of_pos_right _ (Nat.pow_pos (by decide))
    omega
  have habsorb := absorb_eq (s := 0) hwhole
  have habsorb' := absorb_eq (hfold ▸ h)
  rw [← hfold] at habsorb'
  have habsorb : absorb 0 n.whole = (Digits.value n.whole, n.whole.length) := habsorb
  simp only [float?, habsorb, habsorb', Nat.sub_self, scale]
  congr 2
  omega

theorem exponent_value (e : Int) :
    Exponent.value ⟨e < 0, Digits.ofNat e.natAbs⟩ = e := by
  unfold Exponent.value
  by_cases h : e < 0
  · simp only [h, decide_true, if_true, Digits.value_ofNat]
    omega
  · simp only [h, decide_false, Bool.false_eq_true, if_false, Digits.value_ofNat]
    omega

/-- A numeral that is laid out has the value of its digits, with zeros appended. -/
theorem place_value (negative : Bool) {ds : List Digit} (hds : ds ≠ []) (exponent : Int) :
    ∃ zeros : Nat,
      (layout.place negative ds exponent).significand = Digits.value ds * 10 ^ zeros ∧
      (layout.place negative ds exponent).scale = exponent + 1 - ds.length - zeros := by
  have hempty : ds.isEmpty = false := by simpa using hds
  have hlength := List.length_pos_iff.2 hds
  unfold Layout.place
  by_cases hrange : layout.lowest ≤ exponent ∧ exponent ≤ layout.highest
  · by_cases hnonneg : 0 ≤ exponent
    · simp only [hrange, hnonneg, and_self, if_true, significand, scale, Option.map_none,
        Option.getD_none]
      by_cases hwide : ds.length ≤ exponent.toNat + 1
      · -- All digits stand before the point, and the one zero after it is a further digit.
        refine ⟨exponent.toNat + 1 - ds.length + 1, ?_, ?_⟩
        · rw [List.take_of_length_le hwide, List.drop_of_length_le hwide, List.append_assoc,
            Digits.value_append]
          have htail : List.replicate (exponent.toNat + 1 - ds.length) Digit.zero ++ [Digit.zero] =
              List.replicate (exponent.toNat + 1 - ds.length + 1) Digit.zero :=
            List.replicate_succ'.symm
          rw [List.isEmpty_nil, if_pos rfl, htail, Digits.value_replicate_zero,
            List.length_replicate, Nat.add_zero]
        · rw [List.drop_of_length_le hwide]
          simp
          omega
      · have hdrop : (ds.drop (exponent.toNat + 1)).isEmpty = false := by simp; omega
        have htake : exponent.toNat + 1 - (ds.take (exponent.toNat + 1)).length = 0 := by
          simp
          omega
        refine ⟨0, ?_, ?_⟩
        · rw [htake, hdrop, List.replicate_zero, List.append_nil, if_neg Bool.false_ne_true,
            List.take_append_drop, pow_zero, Nat.mul_one]
        · simp [hdrop]
          omega
    · simp only [hrange, hnonneg, and_self, if_true, if_false, significand, scale, hempty,
        Option.map_none, Option.getD_none, Bool.false_eq_true]
      refine ⟨0, ?_, ?_⟩
      · have hzeros : [Digit.zero] ++ (List.replicate ((-exponent).toNat - 1) Digit.zero ++ ds) =
            List.replicate ((-exponent).toNat - 1 + 1) Digit.zero ++ ds := rfl
        rw [hzeros, Digits.value_append, Digits.value_replicate_zero]
        simp
      · simp
        omega
  · simp only [hrange, if_false, significand, scale, Option.map_some, Option.getD_some,
      exponent_value]
    refine ⟨0, ?_, ?_⟩
    · rw [List.take_append_drop, pow_zero, Nat.mul_one]
    · simp
      omega

/-- Trailing zeros only move the point. -/
theorem value_withoutTrailingZeros (ds : List Digit) :
    ∃ zeros : Nat, Digits.value ds = Digits.value (withoutTrailingZeros ds) * 10 ^ zeros ∧
      ds.length = (withoutTrailingZeros ds).length + zeros := by
  have hsplit : ds = withoutTrailingZeros ds ++
      List.replicate (ds.reverse.takeWhile (· = Digit.zero)).length Digit.zero := by
    have hzeros : ds.reverse.takeWhile (· = Digit.zero) =
        List.replicate (ds.reverse.takeWhile (· = Digit.zero)).length Digit.zero := by
      rw [List.eq_replicate_iff]
      refine ⟨rfl, ?_⟩
      intro d hd
      simpa using List.mem_takeWhile_imp hd
    rw [withoutTrailingZeros, ← List.reverse_replicate, ← hzeros, ← List.reverse_append,
      List.takeWhile_append_dropWhile, List.reverse_reverse]
  refine ⟨(ds.reverse.takeWhile (· = Digit.zero)).length, ?_, ?_⟩
  · conv_lhs => rw [hsplit]
    rw [Digits.value_append, Digits.value_replicate_zero, List.length_replicate, Nat.add_zero]
  · conv_lhs => rw [hsplit]
    rw [List.length_append, List.length_replicate]

theorem withoutTrailingZeros_ofNat {n : Nat} (h : n ≠ 0) :
    withoutTrailingZeros (Digits.ofNat n) ≠ [] := by
  obtain ⟨d, ds, hds, hd⟩ := Digits.exists_ofNat h
  obtain ⟨tail, htail⟩ := withoutTrailingZeros_cons hd ds
  simp [hds, htail]

theorem negative_place (negative : Bool) (ds : List Digit) (exponent : Int) :
    (layout.place negative ds exponent).negative = negative := by
  unfold Layout.place
  simp only
  split_ifs <;> rfl

theorem negative_ofFloat (x : Binary64) : (ofFloat x).negative = x.isNegative := by
  unfold ofFloat
  split_ifs
  · exact negative_place _ _ _
  · exact negative_place _ _ _

/-- The numeral of a number has the value of its shortest decimal. -/
theorem ofFloat_value {x : Binary64} (h : x.magnitude ≠ 0) :
    (ofFloat x).significand ≠ 0 ∧
      (ofFloat x).significand * Nat.pow 10 (ofFloat x).scale.toNat *
          (Binary64.shortest x.magnitude).den =
        (Binary64.shortest x.magnitude).num * Nat.pow 10 (-(ofFloat x).scale).toNat := by
  have hn := Binary64.shortest_ne_zero h
  generalize hd : Binary64.shortest x.magnitude = d at *
  obtain ⟨digits, hdigits⟩ : ∃ ds, ds = withoutTrailingZeros (Digits.ofNat d.n) := ⟨_, rfl⟩
  obtain ⟨moved, hvalue, hlength⟩ := value_withoutTrailingZeros (Digits.ofNat d.n)
  rw [Digits.value_ofNat, ← hdigits] at hvalue
  rw [← hdigits] at hlength
  have hx : ofFloat x =
      layout.place x.isNegative digits (d.exponent + (Digits.ofNat d.n).length - 1) := by
    rw [ofFloat, if_neg h, hd, hdigits]
  obtain ⟨zeros, hsignificand, hscale⟩ := place_value x.isNegative
    (hdigits ▸ withoutTrailingZeros_ofNat hn) (d.exponent + (Digits.ofNat d.n).length - 1)
  rw [← hx] at hsignificand hscale
  have hexp : zeros + (ofFloat x).scale.toNat + (-d.exponent).toNat =
      moved + d.exponent.toNat + (-(ofFloat x).scale).toNat := by omega
  constructor
  · rw [hsignificand]
    apply Nat.mul_ne_zero _ (Nat.pow_pos (by decide)).ne'
    rintro hzero
    rw [hzero, Nat.zero_mul] at hvalue
    exact hn hvalue
  · calc (ofFloat x).significand * 10 ^ (ofFloat x).scale.toNat * 10 ^ (-d.exponent).toNat
        = Digits.value digits * 10 ^ (zeros + (ofFloat x).scale.toNat + (-d.exponent).toNat) := by
          rw [hsignificand, pow_add, pow_add]
          ring
      _ = d.n * 10 ^ d.exponent.toNat * 10 ^ (-(ofFloat x).scale).toNat := by
          rw [hexp, hvalue, pow_add, pow_add]
          ring

end Chronicle.Json.Numeral

namespace Chronicle.Binary64

open Json (Numeral)

theorem ofMagnitude_self (x : Binary64) : ofMagnitude x.isNegative x.magnitude = x := by
  obtain ⟨bits⟩ := x
  have hlt := bits.toNat_lt
  have hsum : (ofMagnitude (isNegative ⟨bits⟩) (magnitude ⟨bits⟩)).bits.toNat = bits.toNat := by
    unfold ofMagnitude isNegative magnitude signValue
    by_cases hneg : 0x8000000000000000 ≤ bits.toNat
    · simp only [hneg, decide_true, if_true, UInt64.toNat_ofNat']
      omega
    · simp only [hneg, decide_false, Bool.false_eq_true, if_false, UInt64.toNat_ofNat']
      omega
  exact congrArg mk (UInt64.toNat_inj.1 hsum)

/-- A finite number that is read from its own numeral. -/
def Kept (x : Binary64) : Prop :=
  x.isFinite = true ∧ (Numeral.ofFloat x).float? = some x

/-- A finite number whose numeral has at most fifteen digits and no power of ten that would have
to be rounded. -/
structure Short (x : Binary64) : Prop where
  finite : x.isFinite = true
  digits : (Numeral.ofFloat x).whole.length + (Numeral.ofFloat x).fraction.length ≤ 15
  low : -22 ≤ (Numeral.ofFloat x).scale
  high : (Numeral.ofFloat x).scale ≤ 22

theorem Short.significand_lt {x : Binary64} (h : x.Short) :
    (Numeral.ofFloat x).significand < 10 ^ 15 := by
  calc (Numeral.ofFloat x).significand
      < 10 ^ ((Numeral.ofFloat x).whole ++ (Numeral.ofFloat x).fraction).length :=
        Digits.value_lt _
    _ ≤ 10 ^ 15 := by
        rw [List.length_append]
        exact Nat.pow_le_pow_right (by decide) h.digits

/-- A short number is read from its own numeral: its digits fit the significand and only the one
multiplication with the power of ten rounds. -/
theorem Short.kept {x : Binary64} (h : x.Short) : x.Kept := by
  refine ⟨h.finite, ?_⟩
  have hlt := h.significand_lt
  have hfinite : x.magnitude < infinite := by simpa [isFinite] using h.finite
  have hword : (Numeral.ofFloat x).significand ≤ Numeral.largestWord := by
    unfold Numeral.largestWord
    omega
  rw [Numeral.float?_eq hword, Numeral.negative_ofFloat]
  suffices hscale : scale? (Numeral.ofFloat x).significand (Numeral.ofFloat x).scale =
      some x.magnitude by
    rw [hscale, Option.map_some, ofMagnitude_self]
  by_cases hzero : x.magnitude = 0
  · have hnone : (Numeral.ofFloat x).significand = 0 := by
      rw [Numeral.ofFloat, if_pos hzero]
      rfl
    have hround : ofNat 0 = 0 := by decide
    simp [hnone, hzero, scale?, hround]
  · obtain ⟨hne, hvalue⟩ := Numeral.ofFloat_value hzero
    have hholds := shortest_holds hzero
    have hden : 0 < Nat.pow 10 (-(Numeral.ofFloat x).scale).toNat := Nat.pow_pos (by decide)
    rw [← Interval.holds_congr hden (Decimal.den_pos _) hvalue] at hholds
    apply scale?_eq hne _ h.low h.high hfinite hholds
    unfold fractions
    omega

end Chronicle.Binary64
