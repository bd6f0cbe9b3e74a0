import PinWave.Proofs.Decimal.Nearest
import PinWave.Decimal.Layout
import Mathlib.Tactic.Linarith
import Mathlib.Tactic.Positivity
/-!
# Rounding to the nearest double

Every arithmetic operation on doubles computes its exact result as a significand with a round
bit and a sticky bit, shifts it down to the grid of the result's binade, rounds half to even, and
shifts once more when the rounding carried out of the top bit. This file follows that computation
in rationals: the bits stand for an exact value (`Double.Stands`), each shift halves it, the
rounded significand is the whole number nearest to it (`Double.rne`), and the outcome is the
double nearest to the exact value on its grid (`Double.roundWithAccuracy_eq`). Rounding to the
nearest double keeps order (`Double.nearest_mono`), leaves a double alone
(`Double.nearest_self`), and errs by at most half the step of the grid
(`Double.abs_toRat_nearest_sub_le`).

## Main definitions
* `Double.rne`: the whole number nearest to a rational, a half going to the even one.
* `Double.Stands`: the exact value an extended significand stands for.
* `Double.gridExp`: the exponent of the last bit a double keeps at a positive value.
* `Double.nearest`: the double nearest to a positive rational, on an unbounded exponent range.

## Main statements
* `Double.roundWithAccuracy_eq`: the rounding step of every operation gives the nearest double.
* `Double.nearest_mono`: rounding to the nearest double keeps order.
-/

open Float.Model Float.Model.UnpackedFloat

namespace PinWave

namespace Double

open Decimal

/-! ## The nearest whole number -/

/-- The whole number nearest to `y ≥ 0`, a half going to the even one. -/
def rne (y : ℚ) : ℕ := Decimal.roundHalfEven y.num.toNat y.den

theorem roundsTo_rne {y : ℚ} (hy : 0 ≤ y) : RoundsTo y (rne y) := by
  have hnum : ((y.num.toNat : ℕ) : ℚ) = y.num := by
    have h : ((y.num.toNat : ℕ) : ℤ) = y.num := Int.toNat_of_nonneg (Rat.num_nonneg.2 hy)
    exact_mod_cast h
  have h := roundsTo_roundHalfEven y.num.toNat y.den_pos
  rwa [hnum, Rat.num_div_den] at h

/-- A whole number that rounds `y` is `rne y`. -/
theorem rne_eq_of_roundsTo {y : ℚ} {M : ℕ} (h : RoundsTo y M) (hy : 0 ≤ y) : rne y = M :=
  (roundsTo_rne hy).unique h

theorem rne_mono {y y' : ℚ} (hy : 0 ≤ y) (h : y ≤ y') : rne y ≤ rne y' :=
  (roundsTo_rne hy).le_of_le (roundsTo_rne (hy.trans h)) h

@[simp] theorem rne_natCast (n : ℕ) : rne n = n :=
  rne_eq_of_roundsTo (RoundsTo.natCast n) (Nat.cast_nonneg n)

@[simp] theorem rne_zero : rne 0 = 0 := by
  simpa using rne_natCast 0

/-! ## What the bits of an extended significand stand for -/

/-- The exact value an extended significand stands for: the significand is its whole part, the
round bit says whether the fraction reaches a half, and the sticky bit whether it is neither
zero nor a half. -/
def Stands (em : ExtendedMantissa) (v : ℚ) : Prop :=
  match em.roundBit, em.stickyBit with
  | false, false => v = em.mantissa
  | false, true => (em.mantissa : ℚ) < v ∧ v < em.mantissa + 1 / 2
  | true, false => v = em.mantissa + 1 / 2
  | true, true => (em.mantissa : ℚ) + 1 / 2 < v ∧ v < em.mantissa + 1

theorem stands_exact (m : ℕ) : Stands (ExtendedMantissa.ofMantissaAndAccuracy m .exact) m := rfl

theorem Stands.bounds {em : ExtendedMantissa} {v : ℚ} (h : Stands em v) :
    (em.mantissa : ℚ) ≤ v ∧ v < em.mantissa + 1 := by
  obtain ⟨m, r, s⟩ := em
  cases r <;> cases s <;> simp only [Stands] at h ⊢ <;> constructor <;> linarith

/-- The rounded significand is the whole number nearest to the value. -/
theorem Stands.roundsTo {em : ExtendedMantissa} {v : ℚ} (h : Stands em v) :
    RoundsTo v em.roundedMantissa := by
  obtain ⟨m, r, s⟩ := em
  cases r <;> cases s <;>
    simp only [Stands, ExtendedMantissa.roundedMantissa, ExtendedMantissa.accuracy,
      Accuracy.roundToNearestEven] at h ⊢
  · subst h
    exact RoundsTo.natCast m
  · exact ⟨by linarith, by linarith, fun h' => by linarith, fun h' => by linarith⟩
  · -- a half: the even neighbour
    subst h
    rcases Nat.mod_two_eq_zero_or_one m with hm | hm
    · rw [hm, Nat.add_zero]
      exact ⟨by linarith, le_rfl, fun h' => by linarith, fun _ => hm⟩
    · rw [hm]
      refine ⟨?_, ?_, fun _ => by omega, fun h' => ?_⟩ <;> push_cast at * <;> linarith
  · refine ⟨?_, ?_, fun h' => ?_, fun h' => ?_⟩ <;> push_cast at * <;> linarith

/-- A shift by one bit halves the value: the dropped bit becomes the round bit, and the old
round and sticky bits fold into the sticky bit. -/
theorem Stands.shiftRightOne {em : ExtendedMantissa} {v : ℚ} (h : Stands em v) :
    Stands em.shiftRightOne (v / 2) := by
  obtain ⟨m, r, s⟩ := em
  have hm : ((m / 2 : ℕ) : ℚ) * 2 + (m % 2 : ℕ) = m := by exact_mod_cast Nat.div_add_mod' m 2
  have hbit0 : ((0 : ℕ) != 0) = false := rfl
  have hbit1 : ((1 : ℕ) != 0) = true := rfl
  rcases Nat.mod_two_eq_zero_or_one m with hp | hp <;>
    cases r <;> cases s <;>
    simp only [Stands, ExtendedMantissa.shiftRightOne, hp, hbit0, hbit1, Bool.or_false,
      Bool.or_true, Nat.cast_zero, Nat.cast_one] at h hm ⊢ <;>
    first
      | (constructor <;> linarith)
      | linarith

theorem Stands.shiftRight {em : ExtendedMantissa} {v : ℚ} (h : Stands em v) (n : ℕ) :
    Stands (em >>> n) (v / 2 ^ n) := by
  change Stands (n.repeat ExtendedMantissa.shiftRightOne em) _
  induction n with
  | zero =>
    rw [pow_zero, div_one]
    exact h
  | succ n ih =>
    rw [Nat.repeat, pow_succ, ← div_div]
    exact ih.shiftRightOne

theorem mantissa_ofMantissaAndAccuracy (m : ℕ) (acc : Accuracy) :
    (ExtendedMantissa.ofMantissaAndAccuracy m acc).mantissa = m := by
  cases acc with
  | exact => rfl
  | inexact o => cases o <;> rfl

/-! ## The grid of a binade -/

/-- The exponent of the last bit a double keeps at a positive value `x`: 53 bits down from the
leading one, but never below the last bit of the subnormals. -/
def gridExp (x : ℚ) : ℤ := max (Int.log 2 x - 52) (-1074)

/-- A value from a significand `m > 0` up to the next whole number, times `2^e`, has its leading
bit where `m` has it. -/
theorem log_eq_of_bounds {m : ℕ} {v : ℚ} (e : ℤ) (hm : 0 < m) (h₁ : (m : ℚ) ≤ v)
    (h₂ : v < m + 1) : Int.log 2 (v * 2 ^ e) = m.log2 + e := by
  have hlo : (2 : ℚ) ^ (m.log2 : ℤ) ≤ m := by
    rw [zpow_natCast]
    exact_mod_cast Nat.log2_self_le hm.ne'
  have hhi : (m : ℚ) + 1 ≤ 2 ^ ((m.log2 : ℤ) + 1) := by
    have h : ((m + 1 : ℕ) : ℚ) ≤ ((2 ^ (m.log2 + 1) : ℕ) : ℚ) := by
      exact_mod_cast Nat.lt_log2_self
    rw [show ((m.log2 : ℤ) + 1) = ((m.log2 + 1 : ℕ) : ℤ) by push_cast; ring, zpow_natCast]
    exact_mod_cast h
  have hpos : (0 : ℚ) < 2 ^ e := by positivity
  have hv : 0 < v * 2 ^ e := mul_pos (lt_of_lt_of_le (by exact_mod_cast hm) h₁) hpos
  have hle : ((2 : ℕ) : ℚ) ^ ((m.log2 : ℤ) + e) ≤ v * 2 ^ e := by
    rw [Nat.cast_ofNat, zpow_add₀ two_ne_zero]
    exact mul_le_mul_of_nonneg_right (hlo.trans h₁) hpos.le
  have hlt : v * 2 ^ e < ((2 : ℕ) : ℚ) ^ ((m.log2 : ℤ) + e + 1) := by
    rw [Nat.cast_ofNat, add_right_comm, zpow_add₀ two_ne_zero]
    exact mul_lt_mul_of_pos_right (h₂.trans_le hhi) hpos
  have h1 := (Int.zpow_le_iff_le_log (by norm_num) hv).1 hle
  have h2 := (Int.lt_zpow_iff_log_lt (by norm_num) hv).1 hlt
  omega

theorem mantissaBits_binary64 : Format.binary64.mantissaBits = 53 := rfl

theorem minExponent_binary64 : Format.binary64.minExponent = -1074 := by decide

/-- The exponent the rounding step shifts to is the grid exponent of the exact value. A
significand of zero, left by a quotient below the subnormals, is only ever rounded on the least
exponent. -/
theorem gridExp_eq_targetExponent {m : ℕ} {v : ℚ} {e : ℤ} (hv : 0 < v) (h₁ : (m : ℚ) ≤ v)
    (h₂ : v < m + 1) (he : e ≤ Format.binary64.targetExponent (totalExponent m e)) :
    gridExp (v * 2 ^ e) = Format.binary64.targetExponent (totalExponent m e) := by
  rcases Nat.eq_zero_or_pos m with rfl | hm
  · have hlt : v * 2 ^ e < ((2 : ℕ) : ℚ) ^ e := by
      rw [Nat.cast_ofNat]
      exact mul_lt_of_lt_one_left (by positivity) (by simpa using h₂)
    have hlog := (Int.lt_zpow_iff_log_lt (by norm_num) (by positivity)).1 hlt
    simp only [Format.targetExponent, totalExponent, mantissaBits_binary64, minExponent_binary64,
      Nat.log2_zero] at he ⊢
    unfold gridExp
    omega
  · rw [gridExp, log_eq_of_bounds e hm h₁ h₂, Format.targetExponent, totalExponent,
      mantissaBits_binary64, minExponent_binary64]
    congr 1
    omega

/-- The unpacked positive double of a significand `M ≤ 2^53` on exponent `T`: a significand that
carried out of the top bit moves up one exponent, and a significand of zero is zero. -/
def canon (M : ℕ) (T : ℤ) : UnpackedFloat :=
  if h : M = 0 then .zero .positive
  else if M = 2 ^ 53 then .finite .positive (2 ^ 52) (T + 1) (Nat.two_pow_pos 52)
  else .finite .positive M T (Nat.pos_of_ne_zero h)

/-- The double nearest to a positive rational on an unbounded exponent range: the value on the
grid of its binade, rounded half to even. -/
def nearest (x : ℚ) : UnpackedFloat := canon (rne (x / 2 ^ gridExp x)) (gridExp x)

/-- The second shift of the rounding step: a rounded significand below `2^53` stays where it is,
and `2^53` moves up one exponent. -/
theorem shiftToTargetExponent_rounded {M : ℕ} {T : ℤ} (hM : M ≤ 2 ^ 53) (hT : -1074 ≤ T) :
    ((shiftToTargetExponent .binary64 M T .exact).1.mantissa,
      (shiftToTargetExponent .binary64 M T .exact).2) =
      if M = 2 ^ 53 then (2 ^ 52, T + 1) else (M, T) := by
  simp only [shiftToTargetExponent, shiftToExponent, Format.targetExponent, totalExponent,
    mantissaBits_binary64, minExponent_binary64]
  split
  · rename_i h
    subst h
    have hk : (max (((53 : ℕ) : ℤ) + 1 + T - ((53 : ℕ) : ℤ)) (-1074) - T).toNat = 1 := by omega
    rw [Nat.log2_two_pow, hk]
    rfl
  · rename_i h
    have hlog : M.log2 < 53 := by
      rcases Nat.eq_zero_or_pos M with h0 | h0
      · simp [h0]
      · exact (Nat.log2_lt h0.ne').2 (lt_of_le_of_ne hM h)
    have hk : (max ((M.log2 : ℤ) + 1 + T - ((53 : ℕ) : ℤ)) (-1074) - T).toNat = 0 := by omega
    rw [hk]
    simp [mantissa_ofMantissaAndAccuracy, HShiftRight.hShiftRight, Nat.repeat]

/-- A positive value lies below `2^53` steps of its grid. -/
theorem div_zpow_gridExp_lt (x : ℚ) : x / 2 ^ gridExp x < 2 ^ 53 := by
  have hlog := Int.lt_zpow_succ_log_self (R := ℚ) (by norm_num : 1 < 2) x
  rw [Nat.cast_ofNat] at hlog
  have hg : Int.log 2 x - 52 ≤ gridExp x := le_max_left _ _
  rw [div_lt_iff₀ (by positivity)]
  calc x < 2 ^ (Int.log 2 x + 1) := hlog
    _ ≤ 2 ^ (gridExp x + 53) := zpow_le_zpow_right₀ (by norm_num) (by omega)
    _ = 2 ^ 53 * 2 ^ gridExp x := by rw [zpow_add₀ two_ne_zero, mul_comm]; norm_num

/-- So the rounded significand reaches `2^53` at most. -/
theorem rne_le_two_pow {x : ℚ} (hx : 0 < x) : rne (x / 2 ^ gridExp x) ≤ 2 ^ 53 := by
  have hr := (roundsTo_rne (by positivity : (0 : ℚ) ≤ x / 2 ^ gridExp x)).ge
  have hlt := div_zpow_gridExp_lt x
  have : (rne (x / 2 ^ gridExp x) : ℚ) < 2 ^ 53 + 1 := by linarith
  exact_mod_cast Nat.lt_succ_iff.1 (by exact_mod_cast this)

/-- Above the subnormals a value has its top bit `2^52` steps of its grid up. -/
theorem two_pow_le_div_zpow_gridExp {x : ℚ} (hx : 0 < x) (hg : -1074 < gridExp x) :
    2 ^ 52 ≤ x / 2 ^ gridExp x := by
  have hge : gridExp x = Int.log 2 x - 52 := by
    unfold gridExp at hg ⊢
    omega
  have hlog := Int.zpow_log_le_self (R := ℚ) (by norm_num : 1 < 2) hx
  rw [Nat.cast_ofNat] at hlog
  rw [le_div_iff₀ (by positivity), hge, ← zpow_natCast, ← zpow_add₀ two_ne_zero]
  convert hlog using 2
  push_cast
  ring

theorem two_pow_le_rne {x : ℚ} (hx : 0 < x) (hg : -1074 < gridExp x) :
    2 ^ 52 ≤ rne (x / 2 ^ gridExp x) := by
  have h := rne_mono (by positivity) (two_pow_le_div_zpow_gridExp hx hg)
  rwa [show ((2 : ℚ) ^ 52) = ((2 ^ 52 : ℕ) : ℚ) by push_cast; rfl, rne_natCast] at h

/-- The rounding step of every operation gives the double nearest to the exact value: the bits
`m` with accuracy `acc` stand for `v`, the exact value is `v · 2^e`, and `e` is no coarser than the
grid. -/
theorem roundWithAccuracy_eq {m : ℕ} {e : ℤ} {acc : Accuracy} {v : ℚ} (hv0 : 0 < v)
    (he : e ≤ Format.binary64.targetExponent (totalExponent m e))
    (hv : Stands (ExtendedMantissa.ofMantissaAndAccuracy m acc) v) :
    roundWithAccuracy .binary64 .positive m e acc = nearest (v * 2 ^ e) := by
  obtain ⟨h₁, h₂⟩ := hv.bounds
  rw [mantissa_ofMantissaAndAccuracy] at h₁ h₂
  have hT := gridExp_eq_targetExponent hv0 h₁ h₂ he
  set T := Format.binary64.targetExponent (totalExponent m e) with hTdef
  have hTmin : -1074 ≤ T := by
    rw [← hT]
    exact le_max_right _ _
  -- the first shift lands on the grid, where the bits stand for `v · 2^e / 2^T`
  have hk : e + ((T - e).toNat : ℤ) = T := by omega
  have hfirst : shiftToTargetExponent .binary64 m e acc =
      (ExtendedMantissa.ofMantissaAndAccuracy m acc >>> (T - e).toNat, T) := by
    simp only [shiftToTargetExponent, shiftToExponent, ← hTdef, hk]
  have hx : v / 2 ^ (T - e).toNat = v * 2 ^ e / 2 ^ T := by
    have h2T : (2 : ℚ) ^ T = 2 ^ e * 2 ^ (T - e).toNat := by
      rw [← zpow_natCast, ← zpow_add₀ two_ne_zero, hk]
    rw [h2T]
    field_simp
  have hs := hv.shiftRight (T - e).toNat
  rw [hx] at hs
  have hM := rne_eq_of_roundsTo hs.roundsTo (by positivity)
  have hMle := rne_le_two_pow (mul_pos hv0 (by positivity : (0 : ℚ) < 2 ^ e))
  rw [hT] at hMle
  unfold roundWithAccuracy nearest
  rw [hfirst]
  dsimp only
  rw [← hM, hT]
  -- the second shift moves a carry up one exponent, as `canon` does
  generalize rne (v * 2 ^ e / 2 ^ T) = M at hMle ⊢
  have h2 := shiftToTargetExponent_rounded hMle hTmin
  generalize shiftToTargetExponent .binary64 M T .exact = r at h2 ⊢
  obtain ⟨⟨M', rb, sb⟩, T'⟩ := r
  unfold canon
  by_cases hc : M = 2 ^ 53
  · rw [if_pos hc, Prod.mk.injEq] at h2
    obtain ⟨rfl, rfl⟩ := h2
    rw [dif_neg (by positivity), dif_neg (by rw [hc]; positivity), if_pos hc]
  · rw [if_neg hc, Prod.mk.injEq] at h2
    obtain ⟨rfl, rfl⟩ := h2
    dsimp only at hc
    by_cases h0 : M' = 0
    · rw [dif_pos h0, dif_pos h0]
    · rw [dif_neg h0, dif_neg h0, if_neg hc]

/-! ## The nearest double -/

/-- The value of an unpacked double: `± m · 2^e` for a finite one, and zero for the zeros and for
NaN and the infinities, which have none. -/
def toRat : UnpackedFloat → ℚ
  | .finite s m e _ => (s.apply m : ℚ) * 2 ^ e
  | _ => 0

/-- The form in which doubles are unpacked: a significand below `2^53` with its top bit set,
unless the exponent is the least one. -/
def Canonical : UnpackedFloat → Prop
  | .finite _ m e _ => m < 2 ^ 53 ∧ -1074 ≤ e ∧ (2 ^ 52 ≤ m ∨ e = -1074)
  | _ => True

theorem toRat_canon (M : ℕ) (T : ℤ) : toRat (canon M T) = M * 2 ^ T := by
  unfold canon
  split
  · rename_i h
    simp [toRat, h]
  · split
    · rename_i h
      simp only [toRat, Sign.apply, h, Nat.cast_pow, Nat.cast_ofNat,
        zpow_add₀ (two_ne_zero : (2 : ℚ) ≠ 0)]
      ring
    · simp [toRat, Sign.apply]

theorem toRat_nearest (x : ℚ) :
    toRat (nearest x) = rne (x / 2 ^ gridExp x) * 2 ^ gridExp x :=
  toRat_canon _ _

theorem canonical_canon {M : ℕ} {T : ℤ} (hM : M ≤ 2 ^ 53) (hT : -1074 ≤ T)
    (htop : 2 ^ 52 ≤ M ∨ T = -1074) : Canonical (canon M T) := by
  unfold canon
  split
  · trivial
  · split
    · exact ⟨by norm_num, by omega, .inl le_rfl⟩
    · rename_i h0 h53
      exact ⟨lt_of_le_of_ne hM h53, hT, htop⟩

/-- The nearest double is in the form doubles are unpacked in. -/
theorem canonical_nearest {x : ℚ} (hx : 0 < x) : Canonical (nearest x) := by
  refine canonical_canon (rne_le_two_pow hx) (le_max_right _ _) ?_
  by_cases hg : gridExp x = -1074
  · exact .inr hg
  · exact .inl (two_pow_le_rne hx (lt_of_le_of_ne (le_max_right _ _) (Ne.symm hg)))

theorem gridExp_mono {x y : ℚ} (hx : 0 < x) (h : x ≤ y) : gridExp x ≤ gridExp y :=
  max_le_max (by linarith [Int.log_mono_right (b := 2) hx h]) le_rfl

/-- Rounding to the nearest double keeps order. Within one binade this is the order of the
rounded significands; across binades the larger value is at least the top of the smaller one's
binade, which the smaller one rounds up to at most. -/
theorem nearest_mono {x y : ℚ} (hx : 0 < x) (h : x ≤ y) : toRat (nearest x) ≤ toRat (nearest y) := by
  have hy : 0 < y := hx.trans_le h
  rw [toRat_nearest, toRat_nearest]
  rcases (gridExp_mono hx h).lt_or_eq with hlt | heq
  · -- the larger value is above the subnormals, with its top bit set
    have hg : -1074 < gridExp y := lt_of_le_of_lt (le_max_right _ _) hlt
    have hx' : (rne (x / 2 ^ gridExp x) : ℚ) ≤ 2 ^ 53 := by exact_mod_cast rne_le_two_pow hx
    have hy' : (2 : ℚ) ^ 52 ≤ rne (y / 2 ^ gridExp y) := by exact_mod_cast two_pow_le_rne hy hg
    calc (rne (x / 2 ^ gridExp x) : ℚ) * 2 ^ gridExp x ≤ 2 ^ 53 * 2 ^ gridExp x :=
          mul_le_mul_of_nonneg_right hx' (by positivity)
      _ = 2 ^ 52 * 2 ^ (gridExp x + 1) := by rw [zpow_add₀ two_ne_zero]; ring
      _ ≤ 2 ^ 52 * 2 ^ gridExp y :=
          mul_le_mul_of_nonneg_left (zpow_le_zpow_right₀ (by norm_num) (by omega)) (by positivity)
      _ ≤ rne (y / 2 ^ gridExp y) * 2 ^ gridExp y := mul_le_mul_of_nonneg_right hy' (by positivity)
  · rw [heq]
    have hm := rne_mono (by positivity) (div_le_div_of_nonneg_right h (by positivity : (0 : ℚ) ≤ 2 ^ gridExp y))
    exact mul_le_mul_of_nonneg_right (by exact_mod_cast hm) (by positivity)

/-- The nearest double is within half a step of the grid. -/
theorem abs_toRat_nearest_sub_le {x : ℚ} (hx : 0 ≤ x) :
    |toRat (nearest x) - x| ≤ 2 ^ gridExp x / 2 := by
  have hr := roundsTo_rne (by positivity : (0 : ℚ) ≤ x / 2 ^ gridExp x)
  have hpos : (0 : ℚ) < 2 ^ gridExp x := by positivity
  have h1 := hr.ge
  have h2 := hr.le
  rw [toRat_nearest, abs_le]
  constructor
  · have := mul_le_mul_of_nonneg_right h2 hpos.le
    rw [div_mul_cancel₀ _ hpos.ne', add_mul] at this
    linarith
  · have := mul_le_mul_of_nonneg_right h1 hpos.le
    rw [div_mul_cancel₀ _ hpos.ne', sub_mul] at this
    linarith

/-- The step of the grid is a `2^-52` part of the value, or the least subnormal step. -/
theorem zpow_gridExp_le {x : ℚ} (hx : 0 < x) : (2 : ℚ) ^ gridExp x ≤ x / 2 ^ 52 + 2 ^ (-1074 : ℤ) := by
  have hlog := Int.zpow_log_le_self (R := ℚ) (by norm_num : 1 < 2) hx
  rw [Nat.cast_ofNat] at hlog
  unfold gridExp
  rcases le_total (Int.log 2 x - 52) (-1074) with h | h
  · rw [max_eq_right h]
    have : 0 ≤ x / 2 ^ 52 := by positivity
    linarith
  · rw [max_eq_left h, zpow_sub₀ two_ne_zero, show (2 : ℚ) ^ (52 : ℤ) = 2 ^ 52 by norm_num]
    have : (2 : ℚ) ^ Int.log 2 x / 2 ^ 52 ≤ x / 2 ^ 52 :=
      div_le_div_of_nonneg_right hlog (by positivity)
    have : (0 : ℚ) ≤ 2 ^ (-1074 : ℤ) := by positivity
    linarith

/-- A double is its own nearest double. -/
theorem nearest_self {m : ℕ} {e : ℤ} (hm : 0 < m)
    (hc : Canonical (.finite .positive m e hm)) : nearest (m * 2 ^ e) = .finite .positive m e hm := by
  obtain ⟨hlt, hmin, htop⟩ := hc
  have hlog : m.log2 < 53 := (Nat.log2_lt hm.ne').2 hlt
  have hg : gridExp (m * 2 ^ e) = e := by
    rw [gridExp, log_eq_of_bounds e hm le_rfl (by linarith)]
    rcases htop with htop | htop
    · have : 52 ≤ m.log2 := (Nat.le_log2 hm.ne').2 htop
      omega
    · omega
  have hdiv : (m : ℚ) * 2 ^ e / 2 ^ e = m := by field_simp
  rw [nearest, hg, hdiv, rne_natCast, canon, dif_neg hm.ne', if_neg hlt.ne]

end Double

end PinWave
