import Mathlib
import Chronicle.Binary64.Scaled
import Chronicle.Binary64.Shortest

/-!
# Rounding

Whatever lies in the interval of a magnitude rounds to that magnitude. So a decimal is read
exactly when one rounding is all that happens to it: its significand has no more than 53 bits
and its power of ten none that has to be rounded either.
-/
namespace Chronicle.Binary64

theorem fractions_pos : 0 < fractions := by decide

theorem parts_pos {magnitude : Nat} (h : magnitude ≠ 0) : 0 < (parts magnitude).1 := by
  have hdecompose := Nat.div_add_mod magnitude fractions
  unfold parts
  by_cases hexponent : magnitude / fractions = 0
  · rw [hexponent, Nat.mul_zero, Nat.zero_add] at hdecompose
    simp only [hexponent, if_true]
    omega
  · have hfractions := fractions_pos
    simp only [hexponent, if_false]
    omega

theorem roundQuotient_eq {num den m : Nat} (hden : 0 < den) (hlow : 2 * m * den ≤ 2 * num + den)
    (hhigh : 2 * num ≤ 2 * m * den + den)
    (htie : 2 * m * den = 2 * num + den ∨ 2 * num = 2 * m * den + den → m % 2 = 0) :
    roundQuotient num den = m := by
  have hsum := Nat.div_add_mod num den
  have hlt := Nat.mod_lt num hden
  unfold roundQuotient
  generalize num / den = q at hsum ⊢
  generalize num % den = r at hsum hlt ⊢
  have hle : q ≤ m := by
    by_contra h
    have hmul : den * (m + 1) ≤ den * q := Nat.mul_le_mul_left den (by omega)
    nlinarith
  have hge : m ≤ q + 1 := by
    by_contra h
    have hmul : den * (q + 2) ≤ den * m := Nat.mul_le_mul_left den (by omega)
    nlinarith
  obtain rfl | rfl : m = q ∨ m = q + 1 := by omega
  · have hprod : 2 * m * den = 2 * (den * m) := by ring
    rw [hprod] at hlow hhigh htie
    simp only
    split_ifs <;> omega
  · have hprod : 2 * (q + 1) * den = 2 * (den * q) + 2 * den := by ring
    rw [hprod] at hlow hhigh htie
    simp only
    split_ifs <;> omega

/-- The magnitude nearest to `units / den`, in units of the least magnitude. -/
def rounded (units den : Nat) : Nat :=
  min infinite (((units / den).log2 - 52) * fractions +
    roundQuotient units (den <<< ((units / den).log2 - 52)))

theorem nearest_eq (num den : Nat) : nearest num den = rounded (num <<< 1074) den := by
  rfl

/-- A magnitude from its parts. -/
theorem eq_of_parts (magnitude : Nat) :
    magnitude = (parts magnitude).2 * fractions + (parts magnitude).1 := by
  have hsum := Nat.div_add_mod magnitude fractions
  unfold parts
  by_cases hexponent : magnitude / fractions = 0
  · simp only [hexponent, if_true]
    rw [hexponent, Nat.mul_zero, Nat.zero_add] at hsum
    omega
  · simp only [hexponent, if_false]
    obtain ⟨e, he⟩ : ∃ e, magnitude / fractions = e + 1 := Nat.exists_eq_succ_of_ne_zero hexponent
    rw [he] at hsum ⊢
    rw [Nat.add_sub_cancel]
    nlinarith

theorem parts_lt (magnitude : Nat) : (parts magnitude).1 < 2 * fractions := by
  have hlt := Nat.mod_lt magnitude fractions_pos
  unfold parts
  simp only
  split_ifs <;> simp only <;> omega

/-- A magnitude above the least exponent has a full significand. -/
theorem le_parts {magnitude : Nat} (h : (parts magnitude).2 ≠ 0) :
    fractions ≤ (parts magnitude).1 := by
  unfold parts at h ⊢
  by_cases hexponent : magnitude / fractions = 0
  · simp [hexponent] at h
  · simp [hexponent]

theorem parts_of_full {m e : Nat} (hlow : fractions ≤ m) (hhigh : m < 2 * fractions) :
    parts (e * fractions + m) = (m, e) := by
  have hdiv : (e * fractions + m) / fractions = e + 1 := by
    rw [Nat.div_eq_of_lt_le] <;> nlinarith
  have hmod : (e * fractions + m) % fractions = m - fractions := by
    have hsum := Nat.div_add_mod (e * fractions + m) fractions
    rw [hdiv] at hsum
    nlinarith [Nat.sub_add_cancel hlow]
  have hfull : fractions + (m - fractions) = m := by omega
  rw [parts, hdiv, hmod, if_neg (Nat.succ_ne_zero e), hfull, Nat.add_sub_cancel]

/-- The place of the leading bit of a quotient. -/
theorem log2_div {num den k : Nat} (hden : 0 < den) (hlow : 2 ^ k * den ≤ num)
    (hhigh : num < 2 ^ (k + 1) * den) : (num / den).log2 = k := by
  have hle : 2 ^ k ≤ num / den := (Nat.le_div_iff_mul_le hden).2 hlow
  have hlt : num / den < 2 ^ (k + 1) := (Nat.div_lt_iff_lt_mul hden).2 hhigh
  have hpos : num / den ≠ 0 := by
    have := Nat.two_pow_pos k
    omega
  exact (Nat.log2_eq_iff hpos).2 ⟨hle, hlt⟩

theorem log2_div_le {num den : Nat} (hden : 0 < den) (hhigh : num < 2 * fractions * den) :
    (num / den).log2 - 52 = 0 := by
  have hlt : num / den < 2 * fractions := (Nat.div_lt_iff_lt_mul hden).2 hhigh
  have hlog : (num / den).log2 < 53 := by
    by_cases hzero : num / den = 0
    · simp [hzero]
    · exact (Nat.log2_lt hzero).2 (by simpa [fractions] using hlt)
  omega

/-- Rounding when the leading bit of the quotient is known. -/
theorem rounded_of_log2 {units den e m magnitude : Nat} (hlog : (units / den).log2 - 52 = e)
    (hround : roundQuotient units (2 ^ e * den) = m) (hsum : magnitude = e * fractions + m)
    (hfinite : magnitude < infinite) : rounded units den = magnitude := by
  have hshift : den <<< e = 2 ^ e * den := by rw [Nat.shiftLeft_eq, Nat.mul_comm]
  rw [rounded, hlog, hshift, hround, ← hsum]
  omega

theorem fractions_eq : fractions = 2 ^ 52 := by decide

/-- What lies within half a step of a significand, or at the end of that when the significand is
even, rounds to it. The step below a power of two is half as wide. -/
theorem rounded_eq {magnitude units den m e below : Nat} (hden : 0 < den)
    (hparts : parts magnitude = (m, e)) (hfinite : magnitude < infinite)
    (hbelow : below = if m = fractions ∧ 0 < e then 1 else 2)
    (hlow : (4 * m - below) * (2 ^ e * den) ≤ 4 * units)
    (hhigh : 4 * units ≤ (4 * m + 2) * (2 ^ e * den))
    (htie : m % 2 = 0 ∨ (4 * m - below) * (2 ^ e * den) < 4 * units ∧
      4 * units < (4 * m + 2) * (2 ^ e * den)) :
    rounded units den = magnitude := by
  have hsum := eq_of_parts magnitude
  have hlt := parts_lt magnitude
  have hfull := @le_parts magnitude
  simp only [hparts] at hsum hlt hfull
  have hshift : 2 ^ (52 + e) * den = fractions * (2 ^ e * den) := by
    rw [fractions_eq, pow_add, Nat.mul_assoc]
  have hstep : 0 < 2 ^ e * den := Nat.mul_pos (Nat.two_pow_pos e) hden
  by_cases hlead : e = 0 ∨ fractions * (2 ^ e * den) ≤ units
  · -- The quotient has its leading bit where the significand has it.
    have hbound : 4 * units < 4 * (2 * (fractions * (2 ^ e * den))) := by
      have hmul : (m + 1) * (2 ^ e * den) ≤ 2 * fractions * (2 ^ e * den) :=
        Nat.mul_le_mul_right _ hlt
      linarith
    have hlog : (units / den).log2 - 52 = e := by
      rcases hlead with rfl | hlead
      · apply log2_div_le hden
        rw [pow_zero, one_mul] at hbound
        linarith
      · rw [log2_div (k := 52 + e) hden (by linarith) (by rw [pow_succ]; linarith)]
        omega
    have hround : roundQuotient units (2 ^ e * den) = m := by
      have hwide : (4 * m - 2) * (2 ^ e * den) ≤ (4 * m - below) * (2 ^ e * den) :=
        Nat.mul_le_mul_right _ (by split_ifs at hbelow <;> omega)
      generalize 2 ^ e * den = step at *
      rw [Nat.sub_mul, Nat.mul_assoc] at hwide
      rw [Nat.add_mul, Nat.mul_assoc] at hhigh htie
      apply roundQuotient_eq hstep <;> rw [Nat.mul_assoc] <;> omega
    exact rounded_of_log2 hlog hround hsum hfinite
  · -- The quotient lies below the power of two that it rounds to.
    have hpos : 0 < e := by omega
    have hlead' : units < fractions * (2 ^ e * den) := by omega
    have hm : m = fractions := by
      by_contra hne
      rw [if_neg (by omega)] at hbelow
      have hge : fractions + 1 ≤ m := by
        have := hfull (by omega)
        omega
      have hmul : (fractions + 1) * (2 ^ e * den) ≤ m * (2 ^ e * den) := Nat.mul_le_mul_right _ hge
      rw [hbelow, Nat.sub_mul, Nat.mul_assoc] at hlow
      rw [Nat.add_mul, Nat.one_mul] at hmul
      omega
    obtain ⟨e, rfl⟩ : ∃ k, e = k + 1 := Nat.exists_eq_succ_of_ne_zero (by omega)
    rw [if_pos ⟨hm, hpos⟩] at hbelow
    have htwice : 2 ^ (e + 1) * den = 2 * (2 ^ e * den) := by ring
    have hshift : 2 ^ (52 + e) * den = fractions * (2 ^ e * den) := by
      rw [fractions_eq, pow_add, Nat.mul_assoc]
    subst hbelow hm
    rw [htwice] at hlow hlead' hstep
    have hlog : (units / den).log2 - 52 = e := by
      rw [log2_div (k := 52 + e) hden ?_ (by rw [pow_succ]; linarith)]
      · omega
      · rw [hshift, fractions_eq]
        generalize 2 ^ e * den = step at *
        rw [fractions_eq, Nat.sub_mul] at hlow
        omega
    have hround : roundQuotient units (2 ^ e * den) = 2 * fractions := by
      generalize 2 ^ e * den = step at *
      rw [fractions_eq] at *
      rw [Nat.sub_mul] at hlow
      apply roundQuotient_eq (by omega) <;> omega
    exact rounded_of_log2 hlog hround (by rw [hsum]; ring) hfinite

theorem four_shift (num k : Nat) : num * (1 <<< (k + 2)) = 4 * (num <<< k) := by
  rw [Nat.shiftLeft_eq, Nat.shiftLeft_eq, pow_add]
  ring

/-- What lies in the interval of a magnitude rounds to it. -/
theorem nearest_of_holds {magnitude num den : Nat} (hden : 0 < den) (hfinite : magnitude < infinite)
    (h : (interval magnitude).holds num den = true) : nearest num den = magnitude := by
  rw [nearest_eq]
  obtain ⟨⟨m, e⟩, hparts⟩ : ∃ p, parts magnitude = p := ⟨_, rfl⟩
  have hunits : num * (interval magnitude).den = 4 * (num <<< 1074) := four_shift num 1074
  have hlow : (interval magnitude).low * den =
      (4 * m - if m = fractions ∧ 0 < e then 1 else 2) * (2 ^ e * den) := by
    simp only [interval, hparts, Nat.shiftLeft_eq, Nat.one_mul, Nat.mul_assoc]
  have hhigh : (interval magnitude).high * den = (4 * m + 2) * (2 ^ e * den) := by
    simp only [interval, hparts, Nat.shiftLeft_eq, Nat.one_mul, Nat.mul_assoc]
  have hclosed : (interval magnitude).closed = decide (m % 2 = 0) := by
    simp only [interval, hparts]
  unfold Interval.holds at h
  rw [hunits, hlow, hhigh, hclosed] at h
  by_cases heven : m % 2 = 0
  · simp only [heven, decide_true, if_true, decide_eq_true_eq] at h
    exact rounded_eq hden hparts hfinite rfl h.1 h.2 (.inl heven)
  · simp only [heven, decide_false, Bool.false_eq_true, if_false, decide_eq_true_eq] at h
    exact rounded_eq hden hparts hfinite rfl h.1.le h.2.le (.inr h)

/-- Whether a quotient lies in an interval does not depend on how it is written. -/
theorem Interval.holds_congr {i : Interval} {num den num' den' : Nat} (hden : 0 < den)
    (hden' : 0 < den') (hsame : num * den' = num' * den) : i.holds num den = i.holds num' den' := by
  have hcross : ∀ b : Nat, num * b * den' = num' * b * den := by
    intro b
    rw [Nat.mul_right_comm, hsame, Nat.mul_right_comm]
  have hle : ∀ a b : Nat, a * den ≤ num * b ↔ a * den' ≤ num' * b := by
    intro a b
    calc a * den ≤ num * b
      _ ↔ a * den * den' ≤ num * b * den' := (Nat.mul_le_mul_right_iff hden').symm
      _ ↔ a * den' * den ≤ num' * b * den := by rw [hcross, Nat.mul_right_comm a]
      _ ↔ a * den' ≤ num' * b := Nat.mul_le_mul_right_iff hden
  have hge : ∀ a b : Nat, num * b ≤ a * den ↔ num' * b ≤ a * den' := by
    intro a b
    calc num * b ≤ a * den
      _ ↔ num * b * den' ≤ a * den * den' := (Nat.mul_le_mul_right_iff hden').symm
      _ ↔ num' * b * den ≤ a * den' * den := by rw [hcross, Nat.mul_right_comm a]
      _ ↔ num' * b ≤ a * den' := Nat.mul_le_mul_right_iff hden
  have hlt : ∀ a b : Nat, a * den < num * b ↔ a * den' < num' * b := by
    intro a b
    rw [← Nat.not_le, ← Nat.not_le, hge]
  have hgt : ∀ a b : Nat, num * b < a * den ↔ num' * b < a * den' := by
    intro a b
    rw [← Nat.not_le, ← Nat.not_le, hle]
  simp only [holds, hle, hge, hlt, hgt]

/-! ## Numbers without rounding -/

/-- The magnitude stands for the whole number `n`, with nothing rounded. -/
def Exact (magnitude n : Nat) : Prop :=
  (parts magnitude).1 * 2 ^ (parts magnitude).2 = n * 2 ^ 1074

theorem Exact.ne_zero {magnitude n : Nat} (h : Exact magnitude n) (hn : n ≠ 0) : magnitude ≠ 0 := by
  rintro rfl
  have hparts : (parts 0).1 = 0 := by decide
  unfold Exact at h
  generalize 1074 = k at h
  rw [hparts, Nat.zero_mul] at h
  exact Nat.mul_ne_zero hn (Nat.two_pow_pos k).ne' h.symm

/-- A significand of 53 bits, times a power of two, needs no rounding. -/
theorem exact_ofNat {n s j : Nat} (hn : n = s * 2 ^ j) (hs : s ≠ 0) (hlt : s < 2 * fractions)
    (hj : j ≤ 64) : Exact (ofNat n) n := by
  have hlog : s.log2 ≤ 52 := by
    have := (Nat.log2_lt hs).2 (show s < 2 ^ 53 by simpa [fractions] using hlt)
    omega
  obtain ⟨m, hm⟩ : ∃ m, m = s * 2 ^ (52 - s.log2) := ⟨_, rfl⟩
  have hlow : fractions ≤ m := by
    have hpow : 2 ^ 52 = 2 ^ s.log2 * 2 ^ (52 - s.log2) := by
      rw [← pow_add]
      congr 1
      omega
    rw [fractions_eq, hm, hpow]
    exact Nat.mul_le_mul_right _ (Nat.log2_self_le hs)
  have hhigh : m < 2 * fractions := by
    have hpow : 2 * 2 ^ 52 = 2 ^ (s.log2 + 1) * 2 ^ (52 - s.log2) := by
      rw [← pow_add, ← pow_succ']
      congr 1
      omega
    rw [fractions_eq, hm, hpow]
    exact Nat.mul_lt_mul_of_pos_right Nat.lt_log2_self (Nat.two_pow_pos _)
  obtain ⟨e, he⟩ : ∃ e, e = s.log2 + 1022 + j := ⟨_, rfl⟩
  have hvalue : m * 2 ^ e = n * 2 ^ 1074 := by
    have hpow : 52 - s.log2 + e = j + 1074 := by omega
    rw [hm, hn, Nat.mul_assoc, Nat.mul_assoc, ← pow_add, ← pow_add, hpow]
  have hparts := parts_of_full (e := e) hlow hhigh
  have hfinite : e * fractions + m < infinite := by
    unfold infinite fractions at *
    omega
  have hnear : ofNat n = e * fractions + m := by
    have hstep := Nat.two_pow_pos e
    have hunits : n <<< 1074 = m * 2 ^ e := by
      rw [hvalue]
      generalize 1074 = k
      exact Nat.shiftLeft_eq n k
    rw [ofNat, nearest_eq, hunits]
    apply rounded_eq Nat.one_pos hparts hfinite rfl
    · rw [Nat.mul_one, Nat.sub_mul, Nat.mul_assoc]
      exact Nat.sub_le _ _
    · rw [Nat.mul_one, Nat.add_mul, Nat.mul_assoc]
      exact Nat.le_add_right _ _
    · right
      have hm : 0 < m * 2 ^ e := Nat.mul_pos (by unfold fractions at hlow; omega) hstep
      rw [Nat.mul_one, Nat.sub_mul, Nat.add_mul, Nat.mul_assoc]
      split_ifs <;> omega
  rw [Exact, hnear, hparts]
  exact hvalue

/-- The product of two numbers that are not rounded is rounded once. -/
theorem mul_eq {x y a b magnitude : Nat} (hx : Exact x a) (hy : Exact y b)
    (hfinite : magnitude < infinite) (h : (interval magnitude).holds (a * b) 1 = true) :
    mul x y = magnitude := by
  have hden : 0 < 1 <<< 2148 := by
    generalize 2148 = k
    exact Nat.shiftLeft_pos_iff.mpr Nat.one_pos
  have hnum : ((parts x).1 * (parts y).1) <<< ((parts x).2 + (parts y).2) * 1 =
      a * b * (1 <<< (1074 + 1074)) := by
    unfold Exact at hx hy
    generalize 1074 = k at *
    rw [Nat.shiftLeft_eq, Nat.shiftLeft_eq, pow_add, pow_add]
    calc (parts x).1 * (parts y).1 * (2 ^ (parts x).2 * 2 ^ (parts y).2) * 1
        = ((parts x).1 * 2 ^ (parts x).2) * ((parts y).1 * 2 ^ (parts y).2) := by ring
      _ = a * b * (1 * (2 ^ k * 2 ^ k)) := by
        rw [hx, hy]
        ring
  exact nearest_of_holds hden hfinite
    ((Interval.holds_congr hden Nat.one_pos hnum).trans h)

/-- The quotient of two numbers that are not rounded is rounded once. -/
theorem div_eq {x y a b magnitude : Nat} (hx : Exact x a) (hy : Exact y b) (hb : b ≠ 0)
    (hfinite : magnitude < infinite) (h : (interval magnitude).holds a b = true) :
    div x y = magnitude := by
  have hden : 0 < (parts y).1 <<< (parts y).2 :=
    Nat.shiftLeft_pos_iff.mpr (parts_pos (hy.ne_zero hb))
  have hnum : (parts x).1 <<< (parts x).2 * b = a * ((parts y).1 <<< (parts y).2) := by
    rw [Nat.shiftLeft_eq, Nat.shiftLeft_eq, hx, hy]
    generalize 2 ^ 1074 = w
    ring
  exact nearest_of_holds hden hfinite
    ((Interval.holds_congr hden (Nat.pos_of_ne_zero hb) hnum).trans h)

/-- Powers of ten up to the twenty-second have significands of 53 bits. -/
theorem exact_powerOfTen {k : Nat} (h : k ≤ 22) : Exact (powerOfTen k) (Nat.pow 10 k) := by
  have hfive : 5 ^ k < 2 * fractions := by
    have hle : 5 ^ k ≤ 5 ^ 22 := Nat.pow_le_pow_right (by decide) h
    unfold fractions
    omega
  have hsplit : Nat.pow 10 k = 5 ^ k * 2 ^ k := by
    rw [← Nat.mul_pow]
    rfl
  exact exact_ofNat hsplit (Nat.pos_iff_ne_zero.1 (Nat.pow_pos (by decide))) hfive (by omega)

/-- A significand of 53 bits with a power of ten of at most 22 is rounded once, and so gives the
magnitude in whose interval it lies. -/
theorem scale?_eq {s : Nat} {k : Int} {magnitude : Nat} (hs : s ≠ 0) (hlt : s < 2 * fractions)
    (hlow : -22 ≤ k) (hhigh : k ≤ 22) (hfinite : magnitude < infinite)
    (h : (interval magnitude).holds (s * Nat.pow 10 k.toNat) (Nat.pow 10 (-k).toNat) = true) :
    scale? s k = some magnitude := by
  have hexact : Exact (ofNat s) s := exact_ofNat (j := 0) (by simp) hs hlt (by omega)
  have hne : ofNat s ≠ 0 := hexact.ne_zero hs
  unfold scale?
  by_cases hnonneg : 0 ≤ k
  · have hden : (-k).toNat = 0 := by omega
    have hmul := mul_eq hexact (exact_powerOfTen (k := k.toNat) (by omega)) hfinite
      (by rw [hden] at h; exact h)
    have hlargest : k ≤ largestPower := by
      unfold largestPower
      omega
    simp only [hne, hnonneg, hlargest, hmul, hfinite, if_true, if_false]
  · have hnum : k.toNat = 0 := by omega
    have hpow : Nat.pow 10 (-k).toNat ≠ 0 := (Nat.pow_pos (by decide)).ne'
    have hdiv := div_eq hexact (exact_powerOfTen (k := (-k).toNat) (by omega)) hpow hfinite
      (by rw [hnum] at h; simpa using h)
    have hsteps : ((-k).toNat - 1) / largestPower = 0 := by
      unfold largestPower
      omega
    simp only [hne, hnonneg, hsteps, lowered, Nat.zero_mul, Nat.sub_zero, hdiv, if_false]

end Chronicle.Binary64
