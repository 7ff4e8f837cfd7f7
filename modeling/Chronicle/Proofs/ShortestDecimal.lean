import Mathlib
import Chronicle.Proofs.Rounding

/-!
# Shortest decimals

A number has as many decimal digits as it takes, and the search for the shortest decimal that
rounds to a magnitude always finds one: seventeen digits are a grid fine enough for every
interval.
-/
namespace Chronicle

namespace Digits

theorem exists_prepend {fuel n : Nat} (h : n < fuel) (hn : n ≠ 0) (tail : List Digit) :
    ∃ d ds, prepend fuel n tail = d :: ds ∧ d ≠ Digit.zero := by
  induction fuel generalizing n tail with
  | zero => omega
  | succ fuel ih =>
    by_cases hlt : n < 10
    · refine ⟨Fin.ofNat 10 n, tail, by simp [prepend, hlt], ?_⟩
      intro hzero
      have hval : n % 10 = 0 := congrArg Fin.val hzero
      omega
    · simp only [prepend, if_neg hlt]
      exact ih (by omega) (by omega) _

/-- The digits of a number other than zero begin with another digit than zero. -/
theorem exists_ofNat {n : Nat} (h : n ≠ 0) : ∃ d ds, ofNat n = d :: ds ∧ d ≠ Digit.zero :=
  exists_prepend (by omega) h []

theorem ofNat_zero : ofNat 0 = [Digit.zero] := rfl

theorem ofNat_ne_nil (n : Nat) : ofNat n ≠ [] := by
  by_cases hn : n = 0
  · simp [hn, ofNat_zero]
  · obtain ⟨d, ds, hds, -⟩ := exists_ofNat hn
    simp [hds]

theorem eq_nil_of_ofNat_zero_cons {n : Nat} {ds : List Digit} (h : ofNat n = Digit.zero :: ds) :
    ds = [] := by
  by_cases hn : n = 0
  · rw [hn, ofNat_zero] at h
    exact (List.cons.inj h).2.symm
  · obtain ⟨d, rest, hds, hd⟩ := exists_ofNat hn
    rw [hds] at h
    exact absurd (List.cons.inj h).1 hd

theorem foldl_digits (n : Nat) (ds : List Digit) :
    ds.foldl (fun n d => 10 * n + d.val) n = n * 10 ^ ds.length + value ds := by
  induction ds generalizing n with
  | nil => simp [value]
  | cons d ds ih =>
    simp only [value, List.foldl_cons, List.length_cons]
    rw [ih, ih (10 * 0 + d.val)]
    ring

theorem value_append (front back : List Digit) :
    value (front ++ back) = value front * 10 ^ back.length + value back := by
  rw [value, List.foldl_append, foldl_digits]
  rfl

theorem value_cons (d : Digit) (ds : List Digit) :
    value (d :: ds) = d.val * 10 ^ ds.length + value ds := by
  rw [value, List.foldl_cons, foldl_digits]
  simp

theorem value_replicate_zero (k : Nat) : value (List.replicate k Digit.zero) = 0 := by
  induction k with
  | zero => rfl
  | succ k ih =>
    rw [List.replicate_succ, value_cons, ih]
    simp [Digit.zero]

theorem value_lt (ds : List Digit) : value ds < 10 ^ ds.length := by
  induction ds with
  | nil => simp [value]
  | cons d ds ih =>
    have hd : (d.val + 1) * 10 ^ ds.length ≤ 10 * 10 ^ ds.length :=
      Nat.mul_le_mul_right _ (by omega)
    rw [value_cons, List.length_cons, pow_succ]
    linarith

/-- A number has as many digits as it takes. -/
theorem pow_length_le {n : Nat} (h : n ≠ 0) : 10 ^ ((ofNat n).length - 1) ≤ n := by
  obtain ⟨d, ds, hds, hd⟩ := exists_ofNat h
  have hvalue := value_ofNat n
  rw [hds, value_cons] at hvalue
  rw [hds, List.length_cons, Nat.add_sub_cancel]
  have hpos : 1 ≤ d.val := by
    by_contra hzero
    exact hd (Fin.ext (by simpa [Digit.zero] using hzero))
  have hmul : 1 * 10 ^ ds.length ≤ d.val * 10 ^ ds.length := Nat.mul_le_mul_right _ hpos
  omega

theorem lt_pow_length (n : Nat) : n < 10 ^ (ofNat n).length := by
  have hlt := value_lt (ofNat n)
  rwa [value_ofNat] at hlt

end Digits

namespace Binary64

theorem interval_low_pos {magnitude : Nat} (h : magnitude ≠ 0) : 0 < (interval magnitude).low := by
  have hparts := parts_pos h
  unfold interval
  have hunit : 0 < 1 <<< (parts magnitude).2 := by simp [Nat.shiftLeft_eq]
  apply Nat.mul_pos _ hunit
  split_ifs <;> omega

theorem Interval.pos_of_holds {i : Interval} {num den : Nat} (hlow : 0 < i.low) (hden : 0 < den)
    (h : i.holds num den = true) : 0 < num := by
  have hpos : 0 < i.low * den := Nat.mul_pos hlow hden
  by_contra hnum
  obtain rfl : num = 0 := by omega
  unfold Interval.holds at h
  split_ifs at h
  · simp at h
    omega
  · simp at h

theorem Decimal.den_pos (d : Decimal) : 0 < d.den := by
  simp [Decimal.den]

/-- A grid point that is found lies in the interval. -/
theorem Interval.holds_of_gridPoint? {i : Interval} {exponent : Int} {d : Decimal}
    (h : i.gridPoint? exponent = some d) : i.holds d.num d.den = true := by
  unfold gridPoint? at h
  simp only at h
  split at h
  · cases h
  · cases h; assumption
  · cases h; assumption
  · split_ifs at h <;> cases h <;> assumption

theorem Interval.holds_of_firstGridPoint? {i : Interval} {top : Int} {count digits : Nat}
    {d : Decimal} (h : i.firstGridPoint? top count digits = some d) :
    i.holds d.num d.den = true := by
  induction count generalizing digits with
  | zero => cases h
  | succ count ih =>
    rw [firstGridPoint?] at h
    split at h
    · next hpoint =>
      cases h
      exact holds_of_gridPoint? hpoint
    · exact ih h

/-- The leading digit stands no higher than the number. -/
theorem leadingExponent_le {num den : Nat} (hnum : 0 < num) (hden : 0 < den) :
    10 ^ (leadingExponent num den).toNat * den ≤ num * 10 ^ (-leadingExponent num den).toNat := by
  unfold leadingExponent
  split_ifs with hle
  · have hq : num / den ≠ 0 := (Nat.div_pos hle hden).ne'
    have hlength := List.length_pos_iff.2 (Digits.ofNat_ne_nil (num / den))
    have hpow := Digits.pow_length_le hq
    have hexp : (((Digits.ofNat (num / den)).length : Int) - 1).toNat =
        (Digits.ofNat (num / den)).length - 1 := by omega
    have hneg : (-(((Digits.ofNat (num / den)).length : Int) - 1)).toNat = 0 := by omega
    rw [hexp, hneg, pow_zero, Nat.mul_one]
    calc 10 ^ ((Digits.ofNat (num / den)).length - 1) * den ≤ num / den * den :=
          Nat.mul_le_mul_right _ hpow
      _ ≤ num := Nat.div_mul_le_self num den
  · have hpow := Digits.lt_pow_length ((den - 1) / num)
    have hexp : (-((Digits.ofNat ((den - 1) / num)).length : Int)).toNat = 0 := by omega
    rw [hexp, neg_neg, Int.toNat_natCast, pow_zero, Nat.one_mul]
    have hlt : den - 1 < ((den - 1) / num + 1) * num := by
      rw [Nat.mul_comm]
      exact Nat.lt_mul_div_succ _ hnum
    calc den ≤ ((den - 1) / num + 1) * num := by omega
      _ ≤ 10 ^ (Digits.ofNat ((den - 1) / num)).length * num := Nat.mul_le_mul_right _ hpow
      _ = num * 10 ^ (Digits.ofNat ((den - 1) / num)).length := Nat.mul_comm _ _

theorem Interval.holds_of_lt {i : Interval} {num den : Nat} (hlow : i.low * den < num * i.den)
    (hhigh : num * i.den < i.high * den) : i.holds num den = true := by
  unfold holds
  split_ifs <;> simp [hlow, hhigh, hlow.le, hhigh.le]

/-- A grid finer than the interval is wide has a point in it. -/
theorem Interval.gridPoint?_ne_none {i : Interval} {exponent : Int} (hden : 0 < i.den)
    (hlow : i.low < i.mid) (hhigh : i.mid < i.high)
    (hfine : Nat.pow 10 exponent.toNat * i.den <
      (i.high - i.low) * Nat.pow 10 (-exponent).toNat) :
    i.gridPoint? exponent ≠ none := by
  have hup : 0 < Nat.pow 10 exponent.toNat := Nat.pow_pos (by decide)
  have hdown : 0 < Nat.pow 10 (-exponent).toNat := Nat.pow_pos (by decide)
  intro hnone
  unfold gridPoint? at hnone
  simp only [Decimal.num, Decimal.den] at hnone
  generalize Nat.pow 10 exponent.toNat = up at *
  generalize Nat.pow 10 (-exponent).toNat = down at *
  have hfloor := Nat.div_mul_le_self (i.mid * down) (i.den * up)
  have hceil := Nat.lt_mul_div_succ (i.mid * down) (Nat.mul_pos hden hup)
  generalize i.mid * down / (i.den * up) = n at *
  have hlower : n * up * i.den = n * (i.den * up) := by ring
  have hupper : (n + 1) * up * i.den = i.den * up * (n + 1) := by ring
  have hmid : i.low * down < i.mid * down := Nat.mul_lt_mul_of_pos_right hlow hdown
  have hmid' : i.mid * down < i.high * down := Nat.mul_lt_mul_of_pos_right hhigh hdown
  split at hnone
  · next hfalse hfalse' =>
    have hbelow : n * up * i.den ≤ i.low * down := by
      by_contra hlt
      have hholds : i.holds (n * up) down = true := holds_of_lt (by omega) (by omega)
      simp [hholds] at hfalse
    have habove : i.high * down ≤ (n + 1) * up * i.den := by
      by_contra hlt
      have hholds : i.holds ((n + 1) * up) down = true := holds_of_lt (by omega) (by omega)
      simp [hholds] at hfalse'
    have hspacing : (n + 1) * up * i.den = n * up * i.den + up * i.den := by ring
    rw [Nat.sub_mul] at hfine
    omega
  · cases hnone
  · cases hnone
  · split_ifs at hnone

theorem Interval.firstGridPoint?_eq_none {i : Interval} {top : Int} {count digits : Nat}
    (h : i.firstGridPoint? top count digits = none) {k : Nat} (hlow : digits ≤ k)
    (hhigh : k < digits + count) : i.gridPoint? (top - k + 1) = none := by
  induction count generalizing digits with
  | zero => omega
  | succ count ih =>
    rw [firstGridPoint?] at h
    split at h
    · cases h
    · next hnone =>
      by_cases hk : digits = k
      · rwa [hk] at hnone
      · exact ih h (by omega) (by omega)

/-- The value of a magnitude lies inside its interval, which is less than sixteen digits finer. -/
theorem interval_bounds {magnitude : Nat} (h : magnitude ≠ 0) :
    (interval magnitude).low < (interval magnitude).mid ∧
      (interval magnitude).mid < (interval magnitude).high ∧
        (interval magnitude).mid <
          10 ^ 16 * ((interval magnitude).high - (interval magnitude).low) := by
  have hpos := parts_pos h
  have hlt := parts_lt magnitude
  simp only [interval]
  generalize (parts magnitude).1 = m at *
  generalize (parts magnitude).2 = e
  have hunit : 0 < 1 <<< e := by simp [Nat.shiftLeft_eq]
  generalize 1 <<< e = unit at *
  have hlow : (4 * m - if m = fractions ∧ 0 < e then 1 else 2) * unit =
      4 * m * unit - (if m = fractions ∧ 0 < e then 1 else 2) * unit := Nat.sub_mul _ _ _
  have hhigh : (4 * m + 2) * unit = 4 * m * unit + 2 * unit := Nat.add_mul _ _ _
  have hmid : unit ≤ m * unit := Nat.le_mul_of_pos_left _ hpos
  rw [hlow, hhigh, Nat.mul_assoc]
  by_cases hpower : m = fractions ∧ 0 < e
  · rw [if_pos hpower, hpower.1] at *
    unfold fractions at *
    omega
  · have hwide : m * unit < 2 * fractions * unit := Nat.mul_lt_mul_of_pos_right hlt hunit
    rw [if_neg hpower]
    unfold fractions at hwide
    omega

/-- Seventeen digits are enough to tell a magnitude from its neighbours. -/
theorem shortest_holds {magnitude : Nat} (h : magnitude ≠ 0) :
    (interval magnitude).holds (shortest magnitude).num (shortest magnitude).den = true := by
  unfold shortest
  simp only
  cases hfound : (interval magnitude).firstGridPoint?
      (leadingExponent (interval magnitude).mid (interval magnitude).den) 17 1 with
  | some d => exact Interval.holds_of_firstGridPoint? hfound
  | none =>
    exfalso
    obtain ⟨hlow, hhigh, hwide⟩ := interval_bounds h
    have hden : 0 < (interval magnitude).den := by
      simp only [interval, Nat.shiftLeft_eq, Nat.one_mul]
      exact Nat.two_pow_pos 1076
    have hnone := Interval.firstGridPoint?_eq_none hfound (k := 17) (by omega) (by omega)
    have hmid : 0 < (interval magnitude).mid := by omega
    have hlead := leadingExponent_le hmid hden
    refine Interval.gridPoint?_ne_none hden hlow hhigh ?_ hnone
    generalize leadingExponent (interval magnitude).mid (interval magnitude).den = top at *
    generalize hgrid : top - ((17 : Nat) : Int) + 1 = grid
    have hexp : grid.toNat + 16 + (-top).toNat = top.toNat + (-grid).toNat := by omega
    have hpow : 10 ^ grid.toNat * 10 ^ 16 * 10 ^ (-top).toNat =
        10 ^ top.toNat * 10 ^ (-grid).toNat := by
      rw [← pow_add, ← pow_add, hexp, pow_add]
    have hcross : 10 ^ grid.toNat * (interval magnitude).den * 10 ^ 16 ≤
        (interval magnitude).mid * 10 ^ (-grid).toNat := by
      apply Nat.le_of_mul_le_mul_right _ (Nat.pow_pos (n := (-top).toNat) (show 0 < 10 by decide))
      calc 10 ^ grid.toNat * (interval magnitude).den * 10 ^ 16 * 10 ^ (-top).toNat
          = 10 ^ grid.toNat * 10 ^ 16 * 10 ^ (-top).toNat * (interval magnitude).den := by ring
        _ = 10 ^ top.toNat * (interval magnitude).den * 10 ^ (-grid).toNat := by
          rw [hpow]
          ring
        _ ≤ (interval magnitude).mid * 10 ^ (-top).toNat * 10 ^ (-grid).toNat :=
          Nat.mul_le_mul_right _ hlead
        _ = (interval magnitude).mid * 10 ^ (-grid).toNat * 10 ^ (-top).toNat :=
          Nat.mul_right_comm _ _ _
    have hfine : (interval magnitude).mid * 10 ^ (-grid).toNat <
        10 ^ 16 * ((interval magnitude).high - (interval magnitude).low) * 10 ^ (-grid).toNat :=
      Nat.mul_lt_mul_of_pos_right hwide (Nat.pow_pos (by decide))
    show 10 ^ grid.toNat * (interval magnitude).den <
      ((interval magnitude).high - (interval magnitude).low) * 10 ^ (-grid).toNat
    rw [Nat.mul_assoc] at hfine
    omega

theorem shortest_ne_zero {magnitude : Nat} (h : magnitude ≠ 0) : (shortest magnitude).n ≠ 0 := by
  have hnum := Interval.pos_of_holds (interval_low_pos h) (Decimal.den_pos _) (shortest_holds h)
  intro hzero
  simp [Decimal.num, hzero] at hnum

end Binary64
end Chronicle
