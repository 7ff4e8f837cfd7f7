import Mathlib
import Chronicle.Proofs.JsonText
import Chronicle.Proofs.ShortestDecimal

/-!
# Numerals of numbers

The numeral written for a whole number or for a floating point number is well formed, so that its
text reads back. That of a whole number stands for the number again as long as 64 bits hold it;
that of a floating point number always has a fraction or an exponent, and so is never read as a
whole number.
-/
namespace Chronicle

namespace Json.Numeral

theorem wellFormed_ofInt (n : Int) : (ofInt n).WellFormed where
  whole_ne_nil := Digits.ofNat_ne_nil _
  no_leading_zero := by
    intro ds h
    exact Digits.eq_nil_of_ofNat_zero_cons h
  exponent_ne_nil := by simp [ofInt]

/-- The whole numbers that 64 bits hold, with a sign or without. -/
def Fits (n : Int) : Prop := -0x8000000000000000 ≤ n ∧ n ≤ 0xFFFFFFFFFFFFFFFF

theorem document?_ofInt {n : Int} (h : Fits n) : (ofInt n).document? = some (.int n) := by
  obtain ⟨hlow, hhigh⟩ := h
  have hint : (ofInt n).int? = some n := by
    by_cases hneg : n < 0
    · have hrange : 0 < n.natAbs ∧ n.natAbs ≤ 0x8000000000000000 := by omega
      simp only [int?, ofInt, Digits.value_ofNat, List.isEmpty_nil, Option.isNone_none,
        decide_eq_true hneg, hrange, and_self, if_true]
      exact congrArg some (by omega)
    · have hrange : n.natAbs ≤ largestWord := by
        unfold largestWord
        omega
      simp only [int?, ofInt, Digits.value_ofNat, List.isEmpty_nil, Option.isNone_none,
        decide_eq_false hneg, hrange, and_self, if_true, Bool.false_eq_true, if_false]
      exact congrArg some (by omega)
  simp [document?, hint]

theorem withoutTrailingZeros_cons {d : Digit} (hd : d ≠ Digit.zero) (ds : List Digit) :
    ∃ tail, withoutTrailingZeros (d :: ds) = d :: tail := by
  have hstay : (ds.reverse ++ [d]).dropWhile (· = Digit.zero) =
      ds.reverse.dropWhile (· = Digit.zero) ++ [d] := by
    rw [List.dropWhile_append]
    split_ifs with hempty
    · rw [List.isEmpty_iff.1 hempty]
      simp [hd]
    · rfl
  refine ⟨(ds.reverse.dropWhile (· = Digit.zero)).reverse, ?_⟩
  rw [withoutTrailingZeros, List.reverse_cons, hstay]
  simp

/-- A numeral that is laid out is well formed when its first digit is not zero, and also when
it is the one digit of zero. -/
theorem wellFormed_place (negative : Bool) {d : Digit} {ds : List Digit} {exponent : Int}
    (h : d ≠ Digit.zero ∨ exponent = 0 ∧ ds = []) :
    (layout.place negative (d :: ds) exponent).WellFormed := by
  unfold Layout.place
  by_cases hrange : layout.lowest ≤ exponent ∧ exponent ≤ layout.highest
  · by_cases hnonneg : 0 ≤ exponent
    · simp only [hrange, hnonneg, and_self, if_true]
      refine ⟨by simp, ?_, by simp⟩
      intro tail htail
      simp only [List.take_succ_cons, List.cons_append] at htail
      obtain ⟨rfl, htail⟩ := List.cons.inj htail
      rcases h with hd | ⟨rfl, rfl⟩
      · exact absurd rfl hd
      · simpa using htail.symm
    · simp only [hrange, hnonneg, and_self, if_true, if_false]
      refine ⟨by simp, ?_, by simp⟩
      intro tail htail
      exact (List.cons.inj htail).2.symm
  · simp only [hrange, if_false]
    refine ⟨by simp, ?_, ?_⟩
    · intro tail htail
      simp only [List.take_succ_cons, List.take_zero] at htail
      exact (List.cons.inj htail).2.symm
    · intro e he
      obtain rfl := Option.some.inj he
      exact Digits.ofNat_ne_nil _

/-- A numeral that is laid out has a fraction or an exponent. -/
theorem int?_place (negative : Bool) (ds : List Digit) (exponent : Int) :
    (layout.place negative ds exponent).int? = none := by
  have hfraction : ∀ ds : List Digit,
      (if ds.isEmpty then [Digit.zero] else ds).isEmpty = false := by
    intro ds
    cases ds <;> rfl
  unfold Layout.place int?
  simp only
  split_ifs <;> simp_all

/-- The numeral of a floating point number is laid out from digits as they have to be. -/
theorem exists_ofFloat (x : Binary64) :
    ∃ d ds exponent, ofFloat x = layout.place x.isNegative (d :: ds) exponent ∧
      (d ≠ Digit.zero ∨ exponent = 0 ∧ ds = []) := by
  unfold ofFloat
  by_cases hzero : x.magnitude = 0
  · rw [if_pos hzero]
    exact ⟨Digit.zero, [], 0, rfl, .inr ⟨rfl, rfl⟩⟩
  · rw [if_neg hzero]
    obtain ⟨d, ds, hds, hd⟩ := Digits.exists_ofNat (Binary64.shortest_ne_zero hzero)
    obtain ⟨tail, htail⟩ := withoutTrailingZeros_cons hd ds
    simp only [hds, htail]
    exact ⟨d, tail, _, rfl, .inl hd⟩

theorem wellFormed_ofFloat (x : Binary64) : (ofFloat x).WellFormed := by
  obtain ⟨d, ds, exponent, hx, hdigits⟩ := exists_ofFloat x
  rw [hx]
  exact wellFormed_place _ hdigits

/-- The numeral of a floating point number is never read as a whole number. -/
theorem document?_ofFloat (x : Binary64) :
    (ofFloat x).document? = (ofFloat x).float?.map .float := by
  obtain ⟨d, ds, exponent, hx, -⟩ := exists_ofFloat x
  rw [document?, hx, int?_place]

end Json.Numeral
end Chronicle
