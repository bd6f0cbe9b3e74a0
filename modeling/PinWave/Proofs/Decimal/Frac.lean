import PinWave.Decimal.Shortest
import Mathlib.Algebra.Order.Field.Power
import Mathlib.Algebra.Order.Floor.Semifield
import Mathlib.Data.Rat.Floor
import Mathlib.Tactic.FieldSimp
import Mathlib.Tactic.Linarith
import Mathlib.Tactic.Positivity
/-!
# Exact fractions

The digits of a double are found with fractions of naturals compared by cross-multiplication.
Here each such fraction is given its rational value, and the few operations the digit search
uses are shown to be what they stand for: comparisons compare values, `floorTen` is the floor on
a grid of powers of ten, and `log10` and `log2` are the floor logarithms. The two logarithms
start from the digit counts of numerator and denominator, which fix the answer up to one; a
single comparison settles it, and `floorLog_of_bounds` says once why that comparison suffices.
-/

namespace PinWave.Decimal

/-- The value of a fraction. -/
def Frac.toRat (x : Frac) : ℚ := x.num / x.den

/-- A power with an integer exponent, split into its positive and negative parts as `Frac.scaled`
writes it. -/
theorem zpow_toNat_div {K : Type} [DivisionRing K] {a : K} (ha : a ≠ 0) (p : ℤ) :
    a ^ p.toNat / a ^ (-p).toNat = a ^ p := by
  rw [← zpow_natCast, ← zpow_natCast, ← zpow_sub₀ ha]
  congr 1
  omega

namespace Frac

variable {x y : Frac}

@[simp] theorem den_scaled_pos (a : ℕ) (p k : ℤ) : 0 < (scaled a p k).den := by
  simp only [scaled]
  positivity

theorem num_scaled_pos {a : ℕ} (ha : 0 < a) (p k : ℤ) : 0 < (scaled a p k).num := by
  simp [scaled]
  positivity

@[simp] theorem toRat_scaled (a : ℕ) (p k : ℤ) :
    (scaled a p k).toRat = a * 2 ^ p * 10 ^ k := by
  simp only [toRat, scaled]
  push_cast
  rw [← zpow_toNat_div (two_ne_zero : (2 : ℚ) ≠ 0) p,
    ← zpow_toNat_div (by norm_num : (10 : ℚ) ≠ 0) k]
  field_simp

theorem le_iff (hx : 0 < x.den) (hy : 0 < y.den) : x.le y = true ↔ x.toRat ≤ y.toRat := by
  have hx' : (0 : ℚ) < x.den := by exact_mod_cast hx
  have hy' : (0 : ℚ) < y.den := by exact_mod_cast hy
  rw [le, decide_eq_true_iff, toRat, toRat, div_le_div_iff₀ hx' hy']
  exact_mod_cast Iff.rfl

theorem lt_iff (hx : 0 < x.den) (hy : 0 < y.den) : x.lt y = true ↔ x.toRat < y.toRat := by
  have hx' : (0 : ℚ) < x.den := by exact_mod_cast hx
  have hy' : (0 : ℚ) < y.den := by exact_mod_cast hy
  rw [lt, decide_eq_true_iff, toRat, toRat, div_lt_div_iff₀ hx' hy']
  exact_mod_cast Iff.rfl

/-- `floorTen x s` is the number of whole steps `10^s` below `x`. -/
theorem floorTen_spec (hx : 0 < x.den) (s : ℤ) :
    (x.floorTen s : ℚ) * 10 ^ s ≤ x.toRat ∧ x.toRat < (x.floorTen s + 1) * 10 ^ s := by
  have hB : 0 < x.den * 10 ^ s.toNat := by positivity
  have hq : ((x.num * 10 ^ (-s).toNat : ℕ) : ℚ) / ((x.den * 10 ^ s.toNat : ℕ) : ℚ) =
      x.toRat / 10 ^ s := by
    rw [toRat, ← zpow_toNat_div (by norm_num : (10 : ℚ) ≠ 0) s]
    push_cast
    have : (0 : ℚ) < x.den := by exact_mod_cast hx
    field_simp
  have hfl : ⌊x.toRat / 10 ^ s⌋₊ = x.floorTen s := by
    rw [← hq, Nat.floor_div_eq_div]
    rfl
  have h10 : (0 : ℚ) < 10 ^ s := zpow_pos (by norm_num) s
  have hx0 : 0 ≤ x.toRat := by unfold toRat; positivity
  have hlo := Nat.floor_le (div_nonneg hx0 h10.le)
  have hhi := Nat.lt_floor_add_one (x.toRat / 10 ^ s)
  rw [hfl] at hlo hhi
  constructor
  · rwa [le_div_iff₀ h10] at hlo
  · rwa [div_lt_iff₀ h10] at hhi

end Frac

/-! ## Floor logarithms -/

/-- The number of decimal digits of a positive number places it between two powers of ten. -/
theorem decimalLength_spec {n : ℕ} (hn : 0 < n) :
    10 ^ (decimalLength n - 1) ≤ n ∧ n < 10 ^ decimalLength n := by
  simp only [decimalLength]
  have hpos : 0 < (Nat.toDigits 10 n).length := Nat.length_toDigits_pos
  refine ⟨?_, (Nat.length_toDigits_le_iff (by omega) hpos).1 le_rfl⟩
  by_cases h1 : (Nat.toDigits 10 n).length = 1
  · rw [h1]
    omega
  · have h := (Nat.length_toDigits_le_iff (b := 10) (n := n) (by omega) (by omega :
      0 < (Nat.toDigits 10 n).length - 1)).not
    omega

/-- A value known to lie strictly between `B^(e-1)` and `B^(e+1)` has the floor logarithm `e`
when it reaches `B^e`, and `e - 1` otherwise; `c` is the comparison that tells which. -/
theorem floorLog_of_bounds {B t : ℚ} {e : ℤ} {c : Bool} (hc : c = true ↔ B ^ e ≤ t)
    (h1 : B ^ (e - 1) < t) (h2 : t < B ^ (e + 1)) :
    B ^ (if c then e else e - 1) ≤ t ∧ t < B ^ ((if c then e else e - 1) + 1) := by
  by_cases h : B ^ e ≤ t
  · rw [if_pos (hc.2 h)]
    exact ⟨h, h2⟩
  · rw [if_neg (mt hc.1 h), sub_add_cancel]
    exact ⟨h1.le, lt_of_not_ge h⟩

/-- A quotient of numbers between consecutive powers of `B` lies within one power of the
quotient of the powers. -/
theorem div_bounds_of_pow_bounds {B n d : ℚ} (hB : 1 < B) {a b : ℤ} (ha : B ^ a ≤ n)
    (ha' : n < B ^ (a + 1)) (hb : B ^ b ≤ d) (hb' : d < B ^ (b + 1)) :
    B ^ (a - b - 1) < n / d ∧ n / d < B ^ (a - b + 1) := by
  have hB0 : B ≠ 0 := by positivity
  have hpb : 0 < B ^ b := zpow_pos (by linarith) b
  have hpb' : 0 < B ^ (b + 1) := zpow_pos (by linarith) (b + 1)
  have hd : 0 < d := lt_of_lt_of_le hpb hb
  have e1 : B ^ (a - b - 1) = B ^ a / B ^ (b + 1) := by
    rw [← zpow_sub₀ hB0]
    congr 1
    omega
  have e2 : B ^ (a - b + 1) = B ^ (a + 1) / B ^ b := by
    rw [← zpow_sub₀ hB0]
    congr 1
    omega
  have hpa : 0 < B ^ a := zpow_pos (by linarith) a
  rw [e1, e2]
  constructor
  · calc B ^ a / B ^ (b + 1) < B ^ a / d := by gcongr
      _ ≤ n / d := by gcongr
  · calc n / d < B ^ (a + 1) / d := by gcongr
      _ ≤ B ^ (a + 1) / B ^ b := by gcongr

theorem zpow_decimalLength_bounds {n : ℕ} (hn : 0 < n) :
    (10 : ℚ) ^ ((decimalLength n : ℤ) - 1) ≤ n ∧ (n : ℚ) < 10 ^ ((decimalLength n : ℤ) - 1 + 1) := by
  obtain ⟨h1, h2⟩ := decimalLength_spec hn
  have hpos : 0 < decimalLength n := Nat.length_toDigits_pos
  have e : (decimalLength n : ℤ) - 1 = ((decimalLength n - 1 : ℕ) : ℤ) := by omega
  constructor
  · rw [e, zpow_natCast]
    exact_mod_cast h1
  · rw [sub_add_cancel, zpow_natCast]
    exact_mod_cast h2

theorem zpow_log2_bounds {n : ℕ} (hn : 0 < n) :
    (2 : ℚ) ^ (n.log2 : ℤ) ≤ n ∧ (n : ℚ) < 2 ^ ((n.log2 : ℤ) + 1) := by
  rw [zpow_natCast, show (n.log2 : ℤ) + 1 = ((n.log2 + 1 : ℕ) : ℤ) by omega, zpow_natCast]
  exact ⟨by exact_mod_cast Nat.log2_self_le (by omega), by exact_mod_cast Nat.lt_log2_self⟩

/-- `log10` is the floor logarithm in base ten. -/
theorem Frac.log10_spec {x : Frac} (hn : 0 < x.num) (hd : 0 < x.den) :
    (10 : ℚ) ^ x.log10 ≤ x.toRat ∧ x.toRat < 10 ^ (x.log10 + 1) := by
  obtain ⟨h1, h2⟩ := zpow_decimalLength_bounds hn
  obtain ⟨h3, h4⟩ := zpow_decimalLength_bounds hd
  obtain ⟨h5, h6⟩ := div_bounds_of_pow_bounds (by norm_num) h1 h2 h3 h4
  have e : (decimalLength x.num : ℤ) - 1 - ((decimalLength x.den : ℤ) - 1) =
      (decimalLength x.num : ℤ) - decimalLength x.den := by omega
  rw [e] at h5 h6
  refine floorLog_of_bounds ?_ h5 h6
  rw [Frac.le_iff (Frac.den_scaled_pos _ _ _) hd, Frac.toRat_scaled]
  simp [Frac.toRat]

/-- `log2` is the floor logarithm in base two. -/
theorem Frac.log2_spec {x : Frac} (hn : 0 < x.num) (hd : 0 < x.den) :
    (2 : ℚ) ^ x.log2 ≤ x.toRat ∧ x.toRat < 2 ^ (x.log2 + 1) := by
  obtain ⟨h1, h2⟩ := zpow_log2_bounds hn
  obtain ⟨h3, h4⟩ := zpow_log2_bounds hd
  obtain ⟨h5, h6⟩ := div_bounds_of_pow_bounds one_lt_two h1 h2 h3 h4
  refine floorLog_of_bounds ?_ h5 h6
  rw [Frac.le_iff (Frac.den_scaled_pos _ _ _) hd, Frac.toRat_scaled]
  simp [Frac.toRat]

/-- Any bounds of the floor logarithm in base two name `log2`. -/
theorem Frac.log2_eq_of_bounds {x : Frac} (hn : 0 < x.num) (hd : 0 < x.den) {e : ℤ}
    (h1 : (2 : ℚ) ^ e ≤ x.toRat) (h2 : x.toRat < 2 ^ (e + 1)) : x.log2 = e := by
  obtain ⟨h3, h4⟩ := Frac.log2_spec hn hd
  have a : x.log2 < e + 1 := (zpow_lt_zpow_iff_right₀ one_lt_two).1 (lt_of_le_of_lt h3 h2)
  have b : e < x.log2 + 1 := (zpow_lt_zpow_iff_right₀ one_lt_two).1 (lt_of_le_of_lt h1 h4)
  omega

end PinWave.Decimal
