import Mathlib.Algebra.Order.Field.Power
import Mathlib.Algebra.Order.Field.Rat
import Mathlib.Tactic.Linarith
import Mathlib.Tactic.NormNum
import Mathlib.Tactic.Ring
import ODataClient.Number.Double

/-! Integers as doubles. The double of an integer is the nearest multiple of a power of two that
depends on the size of the integer only, so an integer is exact there just when some double is
equal to it. -/

namespace ODataClient

namespace Double

/-- `1` or `-1`. -/
def sign (negative : Bool) : ℚ := if negative then -1 else 1

/-- The number that a double stands for, unless it is infinite or no number. -/
def toRat? : Double → Option ℚ
  | finite negative m e _ => some (sign negative * (m * 2 ^ e))
  | _ => none

/-- The distance between the doubles around an integer, one where they are closer. -/
def spacing (n : Nat) : Nat := 2 ^ (Nat.log2 n - 52)

/-- The nearest multiple of the spacing. -/
def rounded (n : Nat) : Nat := divNearest n (spacing n) * spacing n

variable {n : Nat} {negative : Bool}

theorem toRat?_pack {m : Nat} {e : Int} (h : Canonical m e) :
    (pack negative m e).toRat? = some (sign negative * (m * 2 ^ e)) := by
  rw [pack, dif_pos h, toRat?]

theorem divNearest_one (n : Nat) : divNearest n 1 = n := by
  simp [divNearest, Nat.mod_one]

theorem divNearest_of_dvd {d : Nat} (hd : 0 < d) (h : d ∣ n) : divNearest n d = n / d := by
  simp [divNearest, Nat.mod_eq_zero_of_dvd h, hd.ne]

theorem div_le_divNearest (n d : Nat) : n / d ≤ divNearest n d := by
  rw [divNearest]
  split <;> omega

theorem divNearest_le (n d : Nat) : divNearest n d ≤ n / d + 1 := by
  rw [divNearest]
  split <;> omega

/-- The exponent that leaves 53 binary digits of an integer. -/
theorem exponentOf_one (hn : n ≠ 0) : exponentOf n 1 = Nat.log2 n - 52 := by
  have hlow := Nat.log2_self_le hn
  have hone : Nat.log2 1 = 0 := by decide
  have hnot : ¬ (shifted n 1 (Nat.log2 n - Nat.log2 1 - 52)).1 <
      Nat.pow 2 52 * (shifted n 1 (Nat.log2 n - Nat.log2 1 - 52)).2 := by
    simp only [shifted, hone, Nat.pow_eq, not_lt, one_mul, ← pow_add]
    by_cases h : Nat.log2 n ≤ 52
    · have hsum : 52 + ((Nat.log2 n : Int) - (0 : Nat) - 52).toNat =
          Nat.log2 n + (-((Nat.log2 n : Int) - (0 : Nat) - 52)).toNat := by omega
      rw [hsum, pow_add]
      exact Nat.mul_le_mul_right _ hlow
    · have hsum : 52 + ((Nat.log2 n : Int) - (0 : Nat) - 52).toNat = Nat.log2 n := by omega
      rw [hsum]
      exact hlow.trans (Nat.le_mul_of_pos_right n (Nat.two_pow_pos _))
  rw [exponentOf, if_neg hnot, hone]
  omega

/-- Up to 53 binary digits nothing is rounded; the digits are moved to the top. -/
theorem toRat?_ofRatio_small (hn : n ≠ 0) (hlog : Nat.log2 n ≤ 52) :
    (ofRatio negative n 1).toRat? = some (sign negative * n) := by
  obtain ⟨k, hk⟩ := Nat.exists_eq_add_of_le hlog
  have he : exponentOf n 1 = -(k : Int) := by rw [exponentOf_one hn]; omega
  have hshift : shifted n 1 (-(k : Int)) = (n * 2 ^ k, 1) := by simp [shifted]
  have hlow : 2 ^ 52 ≤ n * 2 ^ k := by
    calc 2 ^ 52 = 2 ^ Nat.log2 n * 2 ^ k := by rw [← pow_add, ← hk]
      _ ≤ n * 2 ^ k := Nat.mul_le_mul_right _ (Nat.log2_self_le hn)
  have hhigh : n * 2 ^ k < 2 ^ 53 := by
    calc n * 2 ^ k < 2 ^ (Nat.log2 n + 1) * 2 ^ k :=
          Nat.mul_lt_mul_of_pos_right Nat.lt_log2_self (Nat.two_pow_pos k)
      _ = 2 ^ 53 := by rw [← pow_add]; congr 1; omega
  have hcanonical : Canonical (n * 2 ^ k) (-(k : Int)) :=
    ⟨hhigh, by omega, by omega, .inl hlow⟩
  have hvalue : ((n * 2 ^ k : Nat) : ℚ) * 2 ^ (-(k : Int)) = n := by
    rw [Nat.cast_mul, Nat.cast_pow, Nat.cast_ofNat, zpow_neg, zpow_natCast,
      mul_inv_cancel_right₀ (pow_ne_zero k two_ne_zero)]
  rw [ofRatio, if_neg hn]
  simp only [he, hshift, divNearest_one]
  rw [Nat.pow_eq, if_neg hhigh.ne, toRat?_pack hcanonical, hvalue]

/-- Beyond that it is the nearest multiple of the spacing. -/
theorem toRat?_ofRatio_large (hlog : 52 < Nat.log2 n) (htop : Nat.log2 n ≤ 1022) :
    (ofRatio negative n 1).toRat? = some (sign negative * rounded n) := by
  have hn : n ≠ 0 := by
    rintro rfl
    exact absurd hlog (by decide)
  obtain ⟨k, hk⟩ := Nat.exists_eq_add_of_le hlog.le
  have he : exponentOf n 1 = k := by rw [exponentOf_one hn]; omega
  have hspacing : spacing n = 2 ^ k := by rw [spacing, hk, Nat.add_sub_cancel_left]
  have hshift : shifted n 1 k = (n, spacing n) := by simp [shifted, hspacing]
  have hlow : 2 ^ 52 ≤ divNearest n (spacing n) := by
    refine le_trans ?_ (div_le_divNearest _ _)
    rw [hspacing, Nat.le_div_iff_mul_le (Nat.two_pow_pos k), ← pow_add, ← hk]
    exact Nat.log2_self_le hn
  have hhigh : divNearest n (spacing n) ≤ 2 ^ 53 := by
    refine (divNearest_le _ _).trans ?_
    rw [hspacing, Nat.succ_le_iff, Nat.div_lt_iff_lt_mul (Nat.two_pow_pos k), ← pow_add]
    exact Nat.lt_log2_self.trans_le (Nat.pow_le_pow_right (by decide) (by omega))
  have hvalue : (divNearest n (spacing n) : ℚ) * 2 ^ (k : Int) = rounded n := by
    rw [rounded, hspacing, Nat.cast_mul, Nat.cast_pow, Nat.cast_ofNat, zpow_natCast]
  rw [ofRatio, if_neg hn]
  simp only [he, hshift]
  split
  next hcarry =>
    have hcanonical : Canonical (Nat.pow 2 52) ((k : Int) + 1) :=
      ⟨by decide, by omega, by omega, .inl le_rfl⟩
    have hdouble : ((Nat.pow 2 52 : Nat) : ℚ) * 2 ^ ((k : Int) + 1) = rounded n := by
      rw [← hvalue, hcarry, zpow_add₀ two_ne_zero]
      norm_num
      ring
    rw [toRat?_pack hcanonical, hdouble]
  next hcarry =>
    have hcanonical : Canonical (divNearest n (spacing n)) k :=
      ⟨lt_of_le_of_ne hhigh hcarry, by omega, by omega, .inl hlow⟩
    rw [toRat?_pack hcanonical, hvalue]

theorem rounded_of_dvd (h : spacing n ∣ n) : rounded n = n := by
  have hpos : 0 < spacing n := Nat.two_pow_pos _
  rw [rounded, divNearest_of_dvd hpos h, Nat.div_mul_cancel h]

theorem spacing_of_small (hlog : Nat.log2 n ≤ 52) : spacing n = 1 := by
  rw [spacing, Nat.sub_eq_zero_of_le hlog, pow_zero]

/-- The double of an integer whose size is in the range of the doubles. -/
theorem toRat?_ofInt (v : Int) (htop : Nat.log2 v.natAbs ≤ 1022) :
    (ofInt v).toRat? = some (sign (decide (v < 0)) * rounded v.natAbs) := by
  by_cases hzero : v.natAbs = 0
  · obtain rfl := Int.natAbs_eq_zero.1 hzero
    have hcanonical : Canonical 0 (-1074) := by decide
    have hround : rounded 0 = 0 := by decide
    rw [ofInt, ofRatio, if_pos hzero, zero, toRat?_pack hcanonical, Int.natAbs_zero, hround]
    simp
  · by_cases hlog : Nat.log2 v.natAbs ≤ 52
    · rw [ofInt, toRat?_ofRatio_small hzero hlog,
        rounded_of_dvd (spacing_of_small hlog ▸ one_dvd v.natAbs)]
    · rw [ofInt, toRat?_ofRatio_large (Nat.lt_of_not_le hlog) htop]

/-- A whole number times a power of two is whole only as a quotient of whole numbers. -/
theorem mul_pow_toNat {m w : Nat} {e : Int} (h : (m : ℚ) * 2 ^ e = w) :
    m * 2 ^ e.toNat = w * 2 ^ (-e).toNat := by
  have hsplit : (2 : ℚ) ^ e.toNat = 2 ^ e * 2 ^ (-e).toNat := by
    rw [← zpow_natCast, ← zpow_natCast, ← zpow_add₀ two_ne_zero]
    congr 1
    omega
  have hcast : (m : ℚ) * 2 ^ e.toNat = w * 2 ^ (-e).toNat := by
    rw [hsplit, ← mul_assoc, h]
  exact_mod_cast hcast

theorem eq_of_sign_mul {w : Int} {x : ℚ} (hx : 0 ≤ x) (h : sign negative * x = w) :
    x = w.natAbs ∧ (if negative then -(w.natAbs : Int) else w.natAbs) = w := by
  cases negative with
  | false =>
    have hw : x = w := by simpa [sign] using h
    have hnonneg : 0 ≤ w := by
      rw [hw] at hx
      exact_mod_cast hx
    have habs : (w.natAbs : Int) = w := Int.natAbs_of_nonneg hnonneg
    refine ⟨?_, habs⟩
    rw [hw, ← Int.cast_natCast, habs]
  | true =>
    have hw : x = -w := by
      rw [← h]
      simp [sign]
    have hnonneg : 0 ≤ -w := by
      rw [hw] at hx
      exact_mod_cast hx
    have habs : (w.natAbs : Int) = -w := by omega
    refine ⟨?_, by simp [habs]⟩
    rw [hw, ← Int.cast_natCast, habs]
    simp

/-- A double that stands for an integer is cast to it, or to the end of the range. -/
theorem toInt64_of_toRat? {d : Double} {w : Int} (h : d.toRat? = some (w : ℚ)) :
    d.toInt64 = Int64.ofInt (max Int64.minValue.toInt (min Int64.maxValue.toInt w)) := by
  cases d with
  | nan => cases h
  | infinite negative => cases h
  | finite negative m e hc =>
    have hnonneg : 0 ≤ (m : ℚ) * 2 ^ e := by positivity
    obtain ⟨hvalue, hsign⟩ := eq_of_sign_mul hnonneg (Option.some.inj h)
    have hwhole : wholePart m e = w.natAbs := by
      rw [wholePart, Nat.pow_eq, Nat.pow_eq, mul_pow_toNat hvalue,
        Nat.mul_div_cancel _ (Nat.two_pow_pos _)]
    simp only [toInt64, hwhole, hsign]

/-- A double with the size of an integer has at most 53 binary digits, so that the spacing around
the integer divides it. -/
theorem spacing_dvd {m w : Nat} {e : Int} (hm : m < 2 ^ 53) (h : (m : ℚ) * 2 ^ e = w) :
    spacing w ∣ w := by
  have heq := mul_pow_toNat h
  by_cases hlog : Nat.log2 w ≤ 52
  · rw [spacing_of_small hlog]
    exact one_dvd w
  · have hw : w ≠ 0 := by
      rintro rfl
      exact hlog (by decide)
    have hpos : 0 ≤ e := by
      by_contra hneg
      have hle : 2 ^ 53 * 1 ≤ w * 2 ^ (-e).toNat :=
        Nat.mul_le_mul ((Nat.pow_le_pow_right (by decide) (by omega)).trans (Nat.log2_self_le hw))
          (Nat.two_pow_pos _)
      rw [← heq, Int.toNat_of_nonpos (by omega), pow_zero] at hle
      omega
    rw [Int.toNat_of_nonpos (by omega : -e ≤ 0), pow_zero, mul_one] at heq
    have hlt : 2 ^ Nat.log2 w < 2 ^ (53 + e.toNat) := by
      calc 2 ^ Nat.log2 w ≤ w := Nat.log2_self_le hw
        _ = m * 2 ^ e.toNat := heq.symm
        _ < 2 ^ 53 * 2 ^ e.toNat := Nat.mul_lt_mul_of_pos_right hm (Nat.two_pow_pos _)
        _ = 2 ^ (53 + e.toNat) := (pow_add 2 53 e.toNat).symm
    have hexp : Nat.log2 w < 53 + e.toNat := (Nat.pow_lt_pow_iff_right (by decide)).1 hlt
    have hdvd : spacing w ∣ m * 2 ^ e.toNat :=
      (Nat.pow_dvd_pow 2 (by omega)).trans (Nat.dvd_mul_left _ _)
    rwa [heq] at hdvd

/-- What a double is equal to is not rounded. -/
theorem rounded_eq_of_toRat? {d : Double} {w : Int} (h : d.toRat? = some (w : ℚ)) :
    rounded w.natAbs = w.natAbs := by
  cases d with
  | nan => cases h
  | infinite negative => cases h
  | finite negative m e hc =>
    have hnonneg : 0 ≤ (m : ℚ) * 2 ^ e := by positivity
    obtain ⟨hvalue, -⟩ := eq_of_sign_mul hnonneg (Option.some.inj h)
    exact rounded_of_dvd (spacing_dvd hc.1 hvalue)

end Double

end ODataClient
