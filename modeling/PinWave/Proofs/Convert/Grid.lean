import PinWave.Proofs.Double.Arith
import PinWave.Convert.Resample
/-!
# The sampling grid of a resampled dump

A resampled dump has `⌊x⌋` steps, where `x` is the double nearest to the quotient of the span
`n` (the ticks from the first to the last, as the double nearest to it) by the ratio `ρ` of the
strobe period to the tick length (the double nearest to it); step `i` samples the tick `i · ρ`
past the first, taken as the double nearest to it and rounded to a whole number, a half going
to the even one. Here `Double.gridLength` and `Double.gridTick` say so in exact arithmetic, and
the doubles computed are shown to give them (`Double.steps_eq`, `Double.sampleTicks_eq`).

No tick lies past the last one (`Double.gridTick_le`): each of the three roundings errs by at
most a `2^-53` part of its value and half the least subnormal, while a last step `i < ⌊x⌋` has
a whole ratio `ρ` to spare below the span, and `ρ` is at least a `2^-33` part of the span once
there are at most `2^32` steps. So the ticks never wrap around, and they never decrease
(`Double.gridTick_mono`).

## Main definitions
* `Double.value`: the value of a double.
* `Double.gridRatio`, `Double.gridLength`, `Double.gridTick`: the grid in exact arithmetic.
-/

open Float.Model Float.Model.UnpackedFloat

namespace PinWave.Double

/-- The value of a double; NaN and the infinities count zero. -/
def value (x : Float) : ℚ := toRat x.toModel.unpack

/-! ## Nearest doubles -/

theorem nearest_zero : nearest 0 = .zero .positive := by
  simp [nearest, canon]

/-- The nearest double is a positive zero or a positive finite double. -/
theorem nearest_cases (x : ℚ) :
    nearest x = .zero .positive ∨ ∃ m e h, nearest x = .finite .positive m e h := by
  unfold nearest canon
  split
  · exact .inl rfl
  · split
    · exact .inr ⟨_, _, Nat.two_pow_pos 52, rfl⟩
    · exact .inr ⟨_, _, by omega, rfl⟩

theorem toRat_nearest_nonneg (x : ℚ) : 0 ≤ toRat (nearest x) := by
  rw [toRat_nearest]
  positivity

/-- Rounding to the nearest double errs by at most a `2^-53` part of the value and half the
least subnormal. -/
theorem abs_toRat_nearest_sub_le_rel {x : ℚ} (hx : 0 ≤ x) :
    |toRat (nearest x) - x| ≤ x / 2 ^ 53 + 2 ^ (-1075 : ℤ) := by
  rcases hx.eq_or_lt with rfl | hx
  · simp [nearest_zero, toRat]
  · have h1 := abs_toRat_nearest_sub_le hx.le
    have h2 := zpow_gridExp_le hx
    have h3 : (2 : ℚ) ^ (-1074 : ℤ) = 2 * 2 ^ (-1075 : ℤ) := by
      rw [show (-1074 : ℤ) = -1075 + 1 by norm_num, zpow_add_one₀ two_ne_zero]
      ring
    have h4 : x / 2 ^ 53 = x / 2 ^ 52 / 2 := by ring
    linarith

theorem half_subnormal_le : (2 : ℚ) ^ (-1075 : ℤ) ≤ 1 / 8 :=
  calc (2 : ℚ) ^ (-1075 : ℤ) ≤ 2 ^ (-3 : ℤ) := zpow_le_zpow_right₀ (by norm_num) (by norm_num)
    _ = 1 / 8 := by norm_num

/-- The nearest double, as a double: itself, or an infinity past the largest exponent. -/
theorem bounded_nearest_cases (x : ℚ) :
    bounded (nearest x) = nearest x ∨ bounded (nearest x) = .infinity .positive := by
  rcases nearest_cases x with h | ⟨m, e, hm, h⟩ <;> rw [h]
  · exact .inl rfl
  · by_cases he : 971 < e
    · exact .inr (by simp [bounded, he])
    · exact .inl (by simp [bounded, he])

/-- A value whose nearest double is past the largest exponent is at least `2^1000`. -/
theorem two_pow_le_of_bounded {x : ℚ} (hx : 0 < x)
    (h : bounded (nearest x) = .infinity .positive) : 2 ^ 1000 ≤ toRat (nearest x) := by
  have hc := canonical_nearest hx
  rcases nearest_cases x with hz | ⟨m, e, hm, hf⟩
  · rw [hz] at h
    cases h
  · rw [hf] at h hc ⊢
    have he : 971 < e := by
      by_contra he
      simp [bounded, he] at h
    have htop : (2 : ℚ) ^ 52 ≤ m := by exact_mod_cast hc.2.2.resolve_right (by omega)
    rw [toRat_finite_positive]
    calc (2 : ℚ) ^ 1000 ≤ (2 : ℚ) ^ 52 * (2 : ℚ) ^ (972 : ℤ) := by
          rw [zpow_ofNat, ← pow_add]
          exact pow_le_pow_right₀ (by norm_num) (by norm_num)
      _ ≤ (m : ℚ) * 2 ^ e := mul_le_mul htop (zpow_le_zpow_right₀ (by norm_num) (by omega))
          (by positivity) (by positivity)

/-! ## Whole numbers -/

theorem two_zpow_le_natCast {n : ℕ} (hn : 0 < n) : (2 : ℚ) ^ (-1074 : ℤ) ≤ n :=
  le_trans (zpow_le_one_of_nonpos₀ (by norm_num) (by norm_num)) (by exact_mod_cast hn)

/-- A whole number below `2^53` converts to its nearest double, itself. -/
theorem unpack_natCast_toFloat {n : ℕ} (hn : n < 2 ^ 53) :
    n.toFloat.toModel.unpack = nearest n := by
  rcases Nat.eq_zero_or_pos n with rfl | hpos
  · rw [Nat.cast_zero, nearest_zero]
    rfl
  · exact unpack_natToFloat hpos hn

/-- A word below `2^64` converts to its nearest double. -/
theorem unpack_ofNat_toFloat {n : ℕ} (hn : n < 2 ^ 64) :
    (UInt64.ofNat n).toFloat.toModel.unpack = nearest n := by
  rcases Nat.eq_zero_or_pos n with rfl | hpos
  · rw [Nat.cast_zero, nearest_zero]
    rfl
  · have hnat : (UInt64.ofNat n).toNat = n := by
      rw [UInt64.toNat_ofNat']
      exact Nat.mod_eq_of_lt hn
    rw [unpack_toFloat (by omega), hnat]

/-- A double of whole value `n` below `2^53` converts to the word `n`. -/
theorem toNat_toUInt64_of_nearest {y : Float} {n : ℕ} (hy : y.toModel.unpack = nearest n)
    (hn : n < 2 ^ 53) : y.toUInt64.toNat = n := by
  rcases Nat.eq_zero_or_pos n with rfl | hpos
  · rw [Nat.cast_zero, nearest_zero] at hy
    exact toNat_toUInt64_of_zero hy
  · obtain ⟨m, e, h, hme⟩ := exists_finite_nearest (two_zpow_le_natCast hpos)
    have hval : (m : ℚ) * 2 ^ e = n := by
      rw [← toRat_finite_positive m e h, ← hme, toRat_nearest_natCast hn]
    exact toNat_toUInt64_of_eq (hy.trans hme) hval (by omega)

/-- A power of two with a negative exponent divides. -/
theorem mul_zpow_eq_div {e : ℤ} (he : e < 0) (m : ℕ) :
    (m : ℚ) * 2 ^ e = (m : ℚ) / ((2 ^ (-e).toNat : ℕ) : ℚ) := by
  rw [Nat.cast_pow, Nat.cast_ofNat, ← zpow_natCast, Int.toNat_of_nonneg (by omega), zpow_neg,
    div_eq_mul_inv, inv_inv]

/-- A power of two with an exponent at least zero keeps a whole number whole. -/
theorem mul_zpow_eq_natCast {e : ℤ} (he : 0 ≤ e) (m : ℕ) :
    (m : ℚ) * 2 ^ e = ((m * 2 ^ e.toNat : ℕ) : ℚ) := by
  rw [Nat.cast_mul, Nat.cast_pow, Nat.cast_ofNat, ← zpow_natCast, Int.toNat_of_nonneg he]

/-! ## Floor and rounding -/

theorem floor_eq_self {x : Float} (hx : ∀ s m e h, x.toModel.unpack ≠ .finite s m e h) :
    Double.floor x = x := by
  unfold Double.floor
  split
  · rename_i h
    exact absurd h (hx _ _ _ _)
  · rfl

theorem roundHalfEven_eq_self {x : Float} (hx : ∀ s m e h, x.toModel.unpack ≠ .finite s m e h) :
    roundHalfEven x = x := by
  unfold roundHalfEven
  split
  · rename_i h
    exact absurd h (hx _ _ _ _)
  · rfl

/-- The floor of a positive double is the double of the whole part of its value. -/
theorem unpack_floor {x : Float} {m : ℕ} {e : ℤ} {h : 0 < m}
    (hx : x.toModel.unpack = .finite .positive m e h) :
    (Double.floor x).toModel.unpack = nearest ⌊(m : ℚ) * 2 ^ e⌋₊ := by
  have hc := (canonical_toModel_unpack x).1
  rw [hx] at hc
  unfold Double.floor
  rw [hx]
  dsimp only
  split
  · -- a double whose exponent is not negative is whole already
    rename_i he
    rw [hx, mul_zpow_eq_natCast he, Nat.floor_natCast, ← mul_zpow_eq_natCast he, nearest_self h hc]
  · rename_i he
    have hlt : m / 2 ^ (-e).toNat < 2 ^ 53 := lt_of_le_of_lt (Nat.div_le_self _ _) hc.1
    rw [mul_zpow_eq_div (by omega), Nat.floor_div_eq_div, unpack_natCast_toFloat hlt]

/-- Rounding a positive double to a whole number and converting it to a word gives the whole
number nearest to its value, a half going to the even one, saturated at the largest word. -/
theorem toNat_toUInt64_roundHalfEven {x : Float} {m : ℕ} {e : ℤ} {h : 0 < m}
    (hx : x.toModel.unpack = .finite .positive m e h) :
    (roundHalfEven x).toUInt64.toNat = min (rne ((m : ℚ) * 2 ^ e)) (2 ^ 64 - 1) := by
  have hc := (canonical_toModel_unpack x).1
  rw [hx] at hc
  unfold roundHalfEven
  rw [hx]
  dsimp only
  split
  · rename_i he
    rw [toNat_toUInt64 hx, mul_zpow_eq_natCast he, rne_natCast, show (-e).toNat = 0 by omega,
      pow_zero, Nat.div_one]
  · rename_i he
    have hr := Decimal.roundsTo_roundHalfEven m (Nat.two_pow_pos (-e).toNat)
    rw [mul_zpow_eq_div (by omega), rne_eq_of_roundsTo hr (by positivity)]
    -- a significand below `2^53` over at least two rounds below `2^53`
    have hhalf : (m : ℚ) / ((2 ^ (-e).toNat : ℕ) : ℚ) ≤ m / 2 := by
      apply div_le_div_of_nonneg_left (by positivity) (by norm_num)
      exact_mod_cast Nat.le_self_pow (by omega) 2
    have hm : (m : ℚ) < 2 ^ 53 := by exact_mod_cast hc.1
    have hlt : Decimal.roundHalfEven m (2 ^ (-e).toNat) < 2 ^ 53 := by
      have := hr.ge
      have : (Decimal.roundHalfEven m (2 ^ (-e).toNat) : ℚ) < 2 ^ 53 := by linarith
      exact_mod_cast this
    rw [toNat_toUInt64_of_nearest (unpack_natCast_toFloat hlt) hlt]
    omega

/-- Rounding the nearest double to `y` to a whole number and converting it to a word. -/
theorem toNat_toUInt64_roundHalfEven_of_nearest {x : Float} {y : ℚ}
    (hx : x.toModel.unpack = nearest y) :
    (roundHalfEven x).toUInt64.toNat = min (rne (toRat (nearest y))) (2 ^ 64 - 1) := by
  rcases nearest_cases y with hz | ⟨m, e, h, hf⟩
  · rw [roundHalfEven_eq_self (by simp [hx, hz]), toNat_toUInt64_of_zero (hx.trans hz), hz]
    simp [toRat]
  · rw [toNat_toUInt64_roundHalfEven (hx.trans hf), hf, toRat_finite_positive]

/-! ## The number of steps -/

theorem unpack_maxSteps :
    maxSteps.toModel.unpack = .finite .positive (2 ^ 52) (-20) (Nat.two_pow_pos 52) := rfl

/-- A strobe period or a tick length that passes the check is a positive finite double. -/
theorem exists_unpack_of_strobeOk {x : Float} (h : strobeOk x = true) :
    ∃ m e h, x.toModel.unpack = .finite .positive m e h := by
  simp only [strobeOk, Bool.and_eq_true] at h
  obtain ⟨hfin, hpos⟩ := h
  rw [decide_eq_true_iff, lt_iff_unpack,
    show (0.0 : Float).toModel.unpack = .zero .positive from rfl] at hpos
  change x.toModel.unpack.isFinite = true at hfin
  cases hx : x.toModel.unpack with
  | finite s m e hm =>
    cases s with
    | positive => exact ⟨m, e, hm, rfl⟩
    | negative =>
      rw [hx] at hpos
      simp [UnpackedFloat.lt, UnpackedFloat.compare] at hpos
  | _ =>
    rw [hx] at hfin hpos
    simp_all [UnpackedFloat.lt, UnpackedFloat.compare, UnpackedFloat.isFinite]

theorem value_pos_of_strobeOk {x : Float} (h : strobeOk x = true) : 0 < value x := by
  obtain ⟨m, e, hm, hx⟩ := exists_unpack_of_strobeOk h
  rw [value, hx, toRat_finite_positive]
  positivity

/-- A double of whole value `n` exceeds the most steps exactly when `n` does. -/
theorem maxSteps_lt_iff {y : Float} {n : ℕ} (hy : y.toModel.unpack = nearest n) :
    maxSteps < y ↔ 2 ^ 32 < n := by
  rcases Nat.eq_zero_or_pos n with rfl | hpos
  · rw [Nat.cast_zero, nearest_zero] at hy
    exact iff_of_false (not_lt_of_zero unpack_maxSteps hy) (by omega)
  · obtain ⟨m, e, h, hme⟩ := exists_finite_nearest (two_zpow_le_natCast hpos)
    rw [lt_iff_value_lt unpack_maxSteps (hy.trans hme), ← toRat_finite_positive m e h, ← hme,
      show ((2 ^ 52 : ℕ) : ℚ) * 2 ^ (-20 : ℤ) = 2 ^ 32 by norm_num]
    constructor
    · intro hlt
      by_contra hle
      rw [toRat_nearest_natCast (by omega)] at hlt
      exact hle (by exact_mod_cast hlt)
    · -- past `2^32` the nearest double is at least that of `2^32 + 1`, which is exact
      intro hlt
      have hmono := nearest_mono (x := ((2 ^ 32 + 1 : ℕ) : ℚ)) (y := n) (by positivity)
        (by exact_mod_cast (show 2 ^ 32 + 1 ≤ n from hlt))
      rw [toRat_nearest_natCast (by norm_num)] at hmono
      push_cast at hmono
      linarith

theorem not_infinity_of_steps {x : Float} (h : ¬ Double.floor x > maxSteps) :
    x.toModel.unpack ≠ .infinity .positive := by
  intro hx
  rw [floor_eq_self (by simp [hx])] at h
  exact h (lt_of_infinity unpack_maxSteps hx)

/-- The steps of a double that is not negative, when not too many: the whole part of its value,
at most `2^32`. -/
theorem steps_spec {x : Float} (hx : 0 ≤ value x) (h : ¬ Double.floor x > maxSteps) :
    (Double.floor x).toUInt64.toNat = ⌊value x⌋₊ ∧ ⌊value x⌋₊ ≤ 2 ^ 32 := by
  unfold value at hx ⊢
  cases hu : x.toModel.unpack with
  | notANumber =>
    rw [floor_eq_self (by simp [hu]), toNat_toUInt64_of_toInt (by rw [hu]; rfl)]
    simp [toRat]
  | infinity s =>
    cases s with
    | positive => exact absurd hu (not_infinity_of_steps h)
    | negative =>
      rw [floor_eq_self (by simp [hu]), toNat_toUInt64_of_toInt (by rw [hu]; rfl)]
      simp [toRat]
  | zero s =>
    rw [floor_eq_self (by simp [hu]), toNat_toUInt64_of_zero hu]
    simp [toRat]
  | finite s m e hm =>
    cases s with
    | negative =>
      rw [hu] at hx
      simp only [toRat, Sign.apply] at hx
      have : (0 : ℚ) < m * 2 ^ e := by positivity
      push_cast at hx
      linarith
    | positive =>
      have hf := unpack_floor hu
      have hle : ¬ 2 ^ 32 < ⌊(m : ℚ) * 2 ^ e⌋₊ := fun hlt => h ((maxSteps_lt_iff hf).2 hlt)
      rw [toRat_finite_positive]
      exact ⟨toNat_toUInt64_of_nearest hf (by omega), by omega⟩

theorem unpack_div_eq (a b : Float) : (a / b).toModel.unpack =
    UnpackedFloat.unpack .binary64
      (UnpackedFloat.pack .binary64 (UnpackedFloat.div .binary64 a.toModel.unpack b.toModel.unpack)) :=
  rfl

/-- Zero over anything is a zero or NaN, so its value is zero. -/
theorem value_div_of_zero {a : Float} (ha : a.toModel.unpack = .zero .positive) (b : Float) :
    value (a / b) = 0 := by
  rw [value, unpack_div_eq, ha]
  cases b.toModel.unpack <;>
    simp [UnpackedFloat.div, unpack_pack (u := .notANumber) trivial,
      unpack_pack (u := .zero _) trivial, bounded, toRat]

theorem unpack_div_zero {a b : Float} {m : ℕ} {e : ℤ} {h : 0 < m}
    (ha : a.toModel.unpack = .finite .positive m e h) (hb : b.toModel.unpack = .zero .positive) :
    (a / b).toModel.unpack = .infinity .positive := by
  rw [unpack_div_eq, ha, hb]
  exact (unpack_pack (u := .infinity _) trivial)

theorem unpack_div_infinity {a b : Float} {m : ℕ} {e : ℤ} {h : 0 < m}
    (ha : a.toModel.unpack = .finite .positive m e h) (hb : b.toModel.unpack = .infinity .positive) :
    (a / b).toModel.unpack = .zero .positive := by
  rw [unpack_div_eq, ha, hb]
  exact (unpack_pack (u := .zero _) trivial)

/-- The ratio of the strobe period to the tick length: the double nearest to it. -/
def gridRatio (strobe timebase : Float) : ℚ := toRat (nearest (value strobe / value timebase))

/-- The number of steps over a span of `n` ticks at the ratio `ρ`: the whole part of the double
nearest to the quotient of the span's double by `ρ`. -/
def gridLength (n : ℕ) (ρ : ℚ) : ℕ := ⌊toRat (nearest (toRat (nearest n) / ρ))⌋₊

@[simp] theorem gridLength_zero_ratio (n : ℕ) : gridLength n 0 = 0 := by
  simp [gridLength, nearest_zero, toRat]

@[simp] theorem gridLength_zero_span (ρ : ℚ) : gridLength 0 ρ = 0 := by
  simp [gridLength, nearest_zero, toRat]

/-- A ratio of `2^1000` or more leaves no steps in a span below `2^64`. -/
theorem gridLength_eq_zero_of_large {n : ℕ} {ρ : ℚ} (hρ : 2 ^ 1000 ≤ ρ) (hn : n < 2 ^ 64) :
    gridLength n ρ = 0 := by
  have hη := half_subnormal_le
  have hρ0 : 0 < ρ := lt_of_lt_of_le (by positivity) hρ
  have hn' : (n : ℚ) < 2 ^ 64 := by exact_mod_cast hn
  have hD := abs_toRat_nearest_sub_le_rel (Nat.cast_nonneg (α := ℚ) n)
  have hD0 := toRat_nearest_nonneg (n : ℚ)
  obtain ⟨-, hD⟩ := abs_le.1 hD
  have h65 : (2 : ℚ) ^ 65 * 4 ≤ 2 ^ 1000 := by
    rw [show (4 : ℚ) = 2 ^ 2 by norm_num, ← pow_add]
    exact pow_le_pow_right₀ (by norm_num) (by norm_num)
  have hQ0 : 0 ≤ toRat (nearest n) / ρ := div_nonneg hD0 hρ0.le
  -- `linarith` cannot take `2^1000` as a coefficient, so it sees only the bounds it needs
  have hQ : toRat (nearest n) / ρ ≤ 1 / 4 := by
    rw [div_le_iff₀ hρ0]
    linarith only [hD, hη, hn', h65.trans hρ]
  obtain ⟨-, hq⟩ := abs_le.1 (abs_toRat_nearest_sub_le_rel hQ0)
  unfold gridLength
  rw [Nat.floor_eq_zero]
  linarith only [hq, hQ, hη]

/-- The value of the quotient of the span's double by the ratio's double, as far as the steps
go: it is not negative, and its whole part is the number of steps. -/
theorem value_quotient {strobe timebase : Float} {n : ℕ} (hS : strobeOk strobe = true)
    (hT : strobeOk timebase = true) (hn : n < 2 ^ 64)
    (hinf : ((UInt64.ofNat n).toFloat / (strobe / timebase)).toModel.unpack ≠ .infinity .positive) :
    0 ≤ value ((UInt64.ofNat n).toFloat / (strobe / timebase)) ∧
      ⌊value ((UInt64.ofNat n).toFloat / (strobe / timebase))⌋₊ =
        gridLength n (gridRatio strobe timebase) := by
  obtain ⟨m₁, e₁, h₁, hs⟩ := exists_unpack_of_strobeOk hS
  obtain ⟨m₂, e₂, h₂, ht⟩ := exists_unpack_of_strobeOk hT
  have hq : 0 < value strobe / value timebase :=
    div_pos (value_pos_of_strobeOk hS) (value_pos_of_strobeOk hT)
  have hR : (strobe / timebase).toModel.unpack = bounded (nearest (value strobe / value timebase)) := by
    rw [unpack_div hs ht, value, value, hs, ht, toRat_finite_positive, toRat_finite_positive]
  have hD := unpack_ofNat_toFloat hn
  unfold gridRatio
  rcases Nat.eq_zero_or_pos n with rfl | hpos
  · -- an empty span has no steps
    rw [Nat.cast_zero, nearest_zero] at hD
    rw [value_div_of_zero hD]
    simp
  obtain ⟨m, e, h, hm⟩ := exists_finite_nearest (two_zpow_le_natCast hpos)
  rcases bounded_nearest_cases (value strobe / value timebase) with hb | hb
  · rcases nearest_cases (value strobe / value timebase) with hz | ⟨m', e', h', hf⟩
    · -- a ratio that rounds to zero makes the quotient infinite
      exact absurd (unpack_div_zero (hD.trans hm) (by rw [hR, hb, hz])) hinf
    · have hF := unpack_div (hD.trans hm) (hR.trans (hb.trans hf))
      rw [← toRat_finite_positive m e h, ← toRat_finite_positive m' e' h', ← hm, ← hf] at hF
      rw [value, hF]
      rcases bounded_nearest_cases (toRat (nearest n) / toRat (nearest (value strobe / value timebase)))
        with hb' | hb'
      · rw [hb']
        exact ⟨toRat_nearest_nonneg _, rfl⟩
      · exact absurd (hF.trans hb') hinf
  · -- a ratio past the largest double makes the quotient zero, and leaves no steps
    have hF := unpack_div_infinity (hD.trans hm) (hR.trans hb)
    rw [gridLength_eq_zero_of_large (two_pow_le_of_bounded hq hb) hn, value, hF]
    simp [toRat]

/-- A resampling not refused for too many steps has `gridLength` steps, at most `2^32`. -/
theorem steps_eq {strobe timebase : Float} {n : ℕ} (hS : strobeOk strobe = true)
    (hT : strobeOk timebase = true) (hn : n < 2 ^ 64)
    (h : ¬ Double.floor ((UInt64.ofNat n).toFloat / (strobe / timebase)) > maxSteps) :
    (Double.floor ((UInt64.ofNat n).toFloat / (strobe / timebase))).toUInt64.toNat =
        gridLength n (gridRatio strobe timebase) ∧
      gridLength n (gridRatio strobe timebase) ≤ 2 ^ 32 := by
  obtain ⟨hv0, hv⟩ := value_quotient hS hT hn (not_infinity_of_steps h)
  rw [← hv]
  exact steps_spec hv0 h

/-- With at least one step, the ratio is a positive finite double of value `gridRatio`. -/
theorem unpack_ratio_of_pos {strobe timebase : Float} {n : ℕ} (hS : strobeOk strobe = true)
    (hT : strobeOk timebase = true) (hn : n < 2 ^ 64)
    (hL : 0 < gridLength n (gridRatio strobe timebase)) :
    ∃ m e h, (strobe / timebase).toModel.unpack = .finite .positive m e h ∧
      (m : ℚ) * 2 ^ e = gridRatio strobe timebase := by
  obtain ⟨m₁, e₁, h₁, hs⟩ := exists_unpack_of_strobeOk hS
  obtain ⟨m₂, e₂, h₂, ht⟩ := exists_unpack_of_strobeOk hT
  have hq : 0 < value strobe / value timebase :=
    div_pos (value_pos_of_strobeOk hS) (value_pos_of_strobeOk hT)
  rw [unpack_div hs ht, ← toRat_finite_positive m₁ e₁ h₁, ← toRat_finite_positive m₂ e₂ h₂, ← hs,
    ← ht]
  rcases bounded_nearest_cases (value strobe / value timebase) with hb | hb
  · rcases nearest_cases (value strobe / value timebase) with hz | ⟨m, e, h, hf⟩
    · have h0 : gridRatio strobe timebase = 0 := by simp [gridRatio, hz, toRat]
      rw [h0, gridLength_zero_ratio] at hL
      exact absurd hL (lt_irrefl 0)
    · refine ⟨m, e, h, by rw [← value, ← value, hb, hf], ?_⟩
      rw [gridRatio, hf, toRat_finite_positive]
  · exact absurd (gridLength_eq_zero_of_large (two_pow_le_of_bounded hq hb) hn) hL.ne'

/-! ## The ticks -/

/-- The tick that step `i` samples at the ratio `ρ`: the first tick plus the whole number
nearest to the double nearest to `i · ρ`, a half going to the even one. -/
def gridTick (start : ℕ) (ρ : ℚ) (i : ℕ) : ℕ := start + rne (toRat (nearest (i * ρ)))

/-- Later steps never sample earlier ticks. -/
theorem gridTick_mono (start : ℕ) {ρ : ℚ} (hρ : 0 ≤ ρ) : Monotone (gridTick start ρ) := by
  intro i j hij
  unfold gridTick
  rcases (mul_nonneg (Nat.cast_nonneg (α := ℚ) i) hρ).eq_or_lt with h0 | hpos
  · rw [← h0, nearest_zero]
    simp [toRat]
  · have hmul : (i : ℚ) * ρ ≤ j * ρ := mul_le_mul_of_nonneg_right (by exact_mod_cast hij) hρ
    have := rne_mono (toRat_nearest_nonneg _) (nearest_mono hpos hmul)
    omega

/-- The error analysis of a sample: when `x + 1` steps fit in the rounded quotient `q` of the
span's double `D` by `ρ`, and `q < 2^32 + 1`, both `x · ρ` and its nearest double stay below
the span `n` by more than half a tick. One ratio is to spare, and with the span at most `2^33`
ratios the relative errors of the roundings, each at most `2^-53`, cost far less than a ratio. -/
theorem mul_lt_span {n : ℕ} {x ρ : ℚ} (hρ : 0 < ρ) (hx : 0 ≤ x)
    (hq : x + 1 ≤ toRat (nearest (toRat (nearest n) / ρ)))
    (hq' : toRat (nearest (toRat (nearest n) / ρ)) < 2 ^ 32 + 1) :
    x * ρ < n + 1 / 8 ∧ toRat (nearest (x * ρ)) < n + 1 / 2 := by
  set D := toRat (nearest n) with hD
  have hη := half_subnormal_le
  have hη0 : (0 : ℚ) ≤ 2 ^ (-1075 : ℤ) := by positivity
  have hD0 : 0 ≤ D := toRat_nearest_nonneg _
  obtain ⟨hD₁, hD₂⟩ := abs_le.1 (abs_toRat_nearest_sub_le_rel (Nat.cast_nonneg (α := ℚ) n))
  have hQ0 : 0 ≤ D / ρ := div_nonneg hD0 hρ.le
  obtain ⟨hq₁, hq₂⟩ := abs_le.1 (abs_toRat_nearest_sub_le_rel hQ0)
  -- the span is less than `2^33` ratios
  have hDρ : D < 2 ^ 33 * ρ := by
    have hQ : D / ρ < 2 ^ 33 := by linarith
    rwa [div_lt_iff₀ hρ] at hQ
  -- one ratio is to spare below the span
  have hstep : x * ρ + ρ ≤ D * (1 + 1 / 2 ^ 53) + 2 ^ (-1075 : ℤ) * ρ := by
    have hxq : x + 1 ≤ D / ρ + D / ρ / 2 ^ 53 + 2 ^ (-1075 : ℤ) := by linarith
    calc x * ρ + ρ = (x + 1) * ρ := by ring
      _ ≤ (D / ρ + D / ρ / 2 ^ 53 + 2 ^ (-1075 : ℤ)) * ρ := mul_le_mul_of_nonneg_right hxq hρ.le
      _ = D * (1 + 1 / 2 ^ 53) + 2 ^ (-1075 : ℤ) * ρ := by field_simp
  have hηρ : 2 ^ (-1075 : ℤ) * ρ ≤ 1 / 8 * ρ := mul_le_mul_of_nonneg_right hη hρ.le
  have hxρ : x * ρ < n + 1 / 8 := by linarith
  obtain ⟨-, hp⟩ := abs_le.1 (abs_toRat_nearest_sub_le_rel (mul_nonneg hx hρ.le))
  exact ⟨hxρ, by linarith⟩

/-- The bounds of step `i` of at most `2^32`: `i · ρ` lies below the span by more than half a
tick, and its rounded tick is within the span. -/
theorem sample_bounds {n i : ℕ} {ρ : ℚ} (hρ : 0 < ρ) (hi : i < gridLength n ρ)
    (hle : gridLength n ρ ≤ 2 ^ 32) :
    (i : ℚ) * ρ < n + 1 / 8 ∧ rne (toRat (nearest (i * ρ))) ≤ n := by
  have hq0 := toRat_nearest_nonneg (toRat (nearest n) / ρ)
  have hi1 : (i : ℚ) + 1 ≤ toRat (nearest (toRat (nearest n) / ρ)) :=
    le_trans (by exact_mod_cast (show i + 1 ≤ gridLength n ρ from hi)) (Nat.floor_le hq0)
  have hq' : toRat (nearest (toRat (nearest n) / ρ)) < 2 ^ 32 + 1 := by
    have hlt := Nat.lt_floor_add_one (toRat (nearest (toRat (nearest n) / ρ)))
    have h32 : ((gridLength n ρ : ℕ) : ℚ) ≤ 2 ^ 32 := by exact_mod_cast hle
    unfold gridLength at h32
    linarith
  obtain ⟨hxρ, hp⟩ := mul_lt_span hρ (Nat.cast_nonneg i) hi1 hq'
  refine ⟨hxρ, ?_⟩
  -- a value below `n + 1/2` rounds to at most `n`
  have hr := (roundsTo_rne (toRat_nearest_nonneg ((i : ℚ) * ρ))).ge
  have : (rne (toRat (nearest (i * ρ))) : ℚ) < n + 1 := by linarith
  exact Nat.lt_succ_iff.1 (by exact_mod_cast this)

/-- No step samples past the last tick of the span. -/
theorem gridTick_le {n i start : ℕ} {ρ : ℚ} (hρ : 0 < ρ) (hi : i < gridLength n ρ)
    (hle : gridLength n ρ ≤ 2 ^ 32) : gridTick start ρ i ≤ start + n := by
  have := (sample_bounds hρ hi hle).2
  unfold gridTick
  omega

theorem unpack_mul_eq (a b : Float) : (a * b).toModel.unpack =
    UnpackedFloat.unpack .binary64
      (UnpackedFloat.pack .binary64 (UnpackedFloat.mul .binary64 a.toModel.unpack b.toModel.unpack)) :=
  rfl

/-- The word of step `i`: the product of its double by a positive finite ratio, rounded to a
whole number. -/
theorem toNat_sample {ratio : Float} {m : ℕ} {e : ℤ} {h : 0 < m}
    (hr : ratio.toModel.unpack = .finite .positive m e h) {i : ℕ} (hi : i < 2 ^ 53)
    (hprod : (i : ℚ) * (m * 2 ^ e) < 2 ^ 1000) :
    (roundHalfEven (i.toFloat * ratio)).toUInt64.toNat =
      min (rne (toRat (nearest (i * (m * 2 ^ e))))) (2 ^ 64 - 1) := by
  apply toNat_toUInt64_roundHalfEven_of_nearest
  rcases Nat.eq_zero_or_pos i with rfl | hpos
  · -- zero times a positive double is zero
    rw [Nat.cast_zero, zero_mul, nearest_zero, unpack_mul_eq,
      unpack_natCast_toFloat (by norm_num), Nat.cast_zero, nearest_zero, hr]
    exact unpack_pack (u := .zero _) trivial
  · obtain ⟨m₁, e₁, h₁, hm₁⟩ := exists_finite_nearest (two_zpow_le_natCast hpos)
    have hv : (m₁ : ℚ) * 2 ^ e₁ = i := by
      rw [← toRat_finite_positive m₁ e₁ h₁, ← hm₁, toRat_nearest_natCast hi]
    rw [unpack_mul ((unpack_natCast_toFloat hi).trans hm₁) hr, hv,
      bounded_nearest (by positivity) hprod]

/-- On a positive finite ratio of value `ρ`, with at most `2^32` steps over a span that ends below
`2^64`, the sampled ticks are the grid's. -/
theorem sampleTicks_eq {ratio : Float} {m : ℕ} {e : ℤ} {h : 0 < m}
    (hr : ratio.toModel.unpack = .finite .positive m e h) {n start : ℕ}
    (hle : gridLength n (m * 2 ^ e) ≤ 2 ^ 32) (hfin : start + n < 2 ^ 64) :
    sampleTicks (gridLength n (m * 2 ^ e)) ratio start =
      (List.range (gridLength n (m * 2 ^ e))).map (gridTick start (m * 2 ^ e)) := by
  unfold sampleTicks
  refine List.map_congr_left fun i hi => ?_
  rw [List.mem_range] at hi
  have hρ : (0 : ℚ) < m * 2 ^ e := by positivity
  obtain ⟨hxρ, hrne⟩ := sample_bounds hρ hi hle
  have hprod : (i : ℚ) * (m * 2 ^ e) < 2 ^ 1000 := by
    have hn : (n : ℚ) < 2 ^ 64 := by exact_mod_cast (show n < 2 ^ 64 by omega)
    calc (i : ℚ) * (m * 2 ^ e) < n + 1 / 8 := hxρ
      _ < 2 ^ 65 := by linarith
      _ ≤ 2 ^ 1000 := pow_le_pow_right₀ (by norm_num) (by norm_num)
  rw [toNat_sample hr (by omega) hprod, min_eq_left (by omega), gridTick,
    Nat.mod_eq_of_lt (by omega)]
  omega

/-- A resampling not refused for too many steps has `gridLength` steps at the ratio
`gridRatio`, and its ticks are the grid's, none past the last tick of the dump. -/
theorem grid_eq {strobe timebase : Float} {start finish : ℕ} (hS : strobeOk strobe = true)
    (hT : strobeOk timebase = true) (hfin : finish < 2 ^ 64)
    (h : ¬ Double.floor ((UInt64.ofNat (finish - start)).toFloat / (strobe / timebase)) > maxSteps) :
    (Double.floor ((UInt64.ofNat (finish - start)).toFloat / (strobe / timebase))).toUInt64.toNat =
        gridLength (finish - start) (gridRatio strobe timebase) ∧
      sampleTicks (gridLength (finish - start) (gridRatio strobe timebase)) (strobe / timebase)
          start =
        (List.range (gridLength (finish - start) (gridRatio strobe timebase))).map
          (gridTick start (gridRatio strobe timebase)) ∧
      ∀ i < gridLength (finish - start) (gridRatio strobe timebase),
        gridTick start (gridRatio strobe timebase) i ≤ finish := by
  obtain ⟨hlen, hle⟩ := steps_eq hS hT (by omega) h
  refine ⟨hlen, ?_⟩
  rcases Nat.eq_zero_or_pos (gridLength (finish - start) (gridRatio strobe timebase)) with h0 | hpos
  · rw [h0]
    exact ⟨rfl, fun i hi => absurd hi (Nat.not_lt_zero i)⟩
  obtain ⟨m, e, hm, hr, hv⟩ := unpack_ratio_of_pos hS hT (by omega) hpos
  -- with a step at all, the span is not empty
  have hspan : start ≤ finish := by
    by_contra hlt
    rw [show finish - start = 0 by omega, gridLength_zero_span] at hpos
    exact absurd hpos (lt_irrefl 0)
  rw [← hv] at hle ⊢
  refine ⟨sampleTicks_eq hr hle (by omega), fun i hi => ?_⟩
  have : gridTick start _ i ≤ start + (finish - start) := gridTick_le (by positivity) hi hle
  omega

end PinWave.Double
