import PinWave.Decimal.Read
import PinWave.Decimal.Layout
import PinWave.Proofs.Double.Bits
import PinWave.Proofs.Decimal.Frac
import Mathlib.Data.Int.Log
import Mathlib.Tactic.Ring
/-!
# Reading a decimal back as a double

A finite nonzero magnitude `m · 2^q` of a double is what every rational of its rounding interval
reads as: the interval reaches halfway to the neighbouring magnitudes, ends included when `m` is
even. `Binary.Brackets` states the interval in rationals and `readsBack_iff` shows that the digit
search's comparison decides it. The reader `nearestBits` takes the floor logarithm of `d · 10^x`,
rounds it on the grid of its binade, a half going to the even significand, and assembles the
bits; its rounding is the half-even division `roundHalfEven` of the writer, which rounds to
nearest (`roundsTo_roundHalfEven`). `nearestBits_eq_bits` proves that whatever digits lie in the
interval of a magnitude read as exactly its bits; the one delicate place is the bottom of a
binade, where the interval reaches into the binade below and the rounding carries back up.
-/

namespace PinWave.Decimal

namespace Binary

variable {b : Binary} {r : ℚ}

@[simp] theorem toRat_value (b : Binary) : b.value.toRat = b.man * 2 ^ b.exp := by
  simp [value]

theorem den_lower_pos (b : Binary) : 0 < b.lower.den := by
  unfold lower
  split <;> exact Frac.den_scaled_pos _ _ _

theorem den_upper_pos (b : Binary) : 0 < b.upper.den := Frac.den_scaled_pos _ _ _

theorem toRat_lower (hm : 0 < b.man) :
    b.lower.toRat = (b.man - if b.lowerClose then 1 / 4 else 1 / 2) * 2 ^ b.exp := by
  unfold lower
  split
  · rw [Frac.toRat_scaled, Nat.cast_sub (by omega), zpow_sub₀ two_ne_zero]
    norm_num
    ring
  · rw [Frac.toRat_scaled, Nat.cast_sub (by omega), zpow_sub₀ two_ne_zero]
    norm_num
    ring

theorem toRat_upper (b : Binary) : b.upper.toRat = (b.man + 1 / 2) * 2 ^ b.exp := by
  rw [upper, Frac.toRat_scaled, zpow_sub₀ two_ne_zero]
  norm_num
  ring

/-- The rationals that read back as the magnitude `b`: its rounding interval, which reaches
halfway to the neighbouring magnitudes and holds its ends when the significand is even. -/
def Brackets (b : Binary) (r : ℚ) : Prop :=
  if b.man % 2 = 0 then b.lower.toRat ≤ r ∧ r ≤ b.upper.toRat
  else b.lower.toRat < r ∧ r < b.upper.toRat

/-- The digit search's test is membership of the decimal `c · 10^s` in the rounding interval. -/
theorem readsBack_iff (b : Binary) (c : ℕ) (s : ℤ) :
    b.readsBack c s = true ↔ b.Brackets (c * 10 ^ s) := by
  have hx := Frac.den_scaled_pos c 0 s
  have hv : (Frac.scaled c 0 s).toRat = c * 10 ^ s := by simp
  unfold readsBack Brackets
  dsimp only
  split <;> rename_i h <;> simp only [beq_iff_eq] at h <;> simp only [h, if_true, if_false] <;>
    simp only [Bool.and_eq_true, Frac.le_iff b.den_lower_pos hx, Frac.le_iff hx b.den_upper_pos,
      Frac.lt_iff b.den_lower_pos hx, Frac.lt_iff hx b.den_upper_pos, hv]

theorem Brackets.lower_le (h : b.Brackets r) : b.lower.toRat ≤ r := by
  unfold Brackets at h
  split at h
  · exact h.1
  · exact h.1.le

theorem Brackets.le_upper (h : b.Brackets r) : r ≤ b.upper.toRat := by
  unfold Brackets at h
  split at h
  · exact h.2
  · exact h.2.le

/-- An end of the interval belongs to it only for an even significand. -/
theorem Brackets.even_of_eq_lower (h : b.Brackets r) (he : r = b.lower.toRat) : b.man % 2 = 0 := by
  unfold Brackets at h
  split at h
  · assumption
  · exact absurd he h.1.ne'

theorem Brackets.even_of_eq_upper (h : b.Brackets r) (he : r = b.upper.toRat) : b.man % 2 = 0 := by
  unfold Brackets at h
  split at h
  · assumption
  · exact absurd he h.2.ne

end Binary

/-! ## Rounding to a whole number -/

/-- `M` is a whole number nearest to `y`, and the even one when `y` lies halfway between two. -/
structure RoundsTo (y : ℚ) (M : ℕ) : Prop where
  ge : (M : ℚ) - 1 / 2 ≤ y
  le : y ≤ M + 1 / 2
  even_of_low : y = M - 1 / 2 → M % 2 = 0
  even_of_high : y = M + 1 / 2 → M % 2 = 0

namespace RoundsTo

variable {y y' : ℚ} {M M' : ℕ}

/-- Rounding to a whole number keeps order: a larger value never rounds lower, since two values
rounding past each other would both sit on one midpoint, which only one even number borders. -/
theorem le_of_le (h : RoundsTo y M) (h' : RoundsTo y' M') (hy : y ≤ y') : M ≤ M' := by
  by_contra hlt
  have hM : (M' : ℚ) + 1 ≤ M := by exact_mod_cast Nat.lt_iff_add_one_le.1 (not_le.1 hlt)
  have hlow : y = M - 1 / 2 := by linarith [h.ge, h'.le]
  have hhigh : y' = M' + 1 / 2 := by linarith [h.ge, h'.le]
  have hMM : (M : ℚ) = M' + 1 := by linarith [h.ge, h'.le]
  have heven := h.even_of_low hlow
  have heven' := h'.even_of_high hhigh
  have : M = M' + 1 := by exact_mod_cast hMM
  omega

theorem unique (h : RoundsTo y M) (h' : RoundsTo y M') : M = M' :=
  le_antisymm (h.le_of_le h' le_rfl) (h'.le_of_le h le_rfl)

theorem natCast (n : ℕ) : RoundsTo n n :=
  ⟨by linarith, by linarith, fun h => by linarith, fun h => by linarith⟩

end RoundsTo

/-- `⌊a / d⌉`, a half going to the even neighbour, rounds `a / d`. -/
theorem roundsTo_roundHalfEven (a : ℕ) {d : ℕ} (hd : 0 < d) :
    RoundsTo ((a : ℚ) / d) (Decimal.roundHalfEven a d) := by
  have hdq : (0 : ℚ) < d := by exact_mod_cast hd
  have hr : a % d < d := Nat.mod_lt _ hd
  -- `a / d` is its whole part `q` plus the fraction `r / d`
  have hsplit : (a : ℚ) / d = (a / d : ℕ) + ((a % d : ℕ) : ℚ) / d := by
    have e : (a : ℚ) = (a / d : ℕ) * d + (a % d : ℕ) := by exact_mod_cast (Nat.div_add_mod' a d).symm
    rw [e]
    field_simp
  have hf : ((a % d : ℕ) : ℚ) / d < 1 := by
    rw [div_lt_one hdq]
    exact_mod_cast hr
  have hf0 : (0 : ℚ) ≤ ((a % d : ℕ) : ℚ) / d := by positivity
  -- compare the fraction with a half through `2 r` and `d`
  have hlt : 2 * (a % d) < d → ((a % d : ℕ) : ℚ) / d < 1 / 2 := fun h => by
    rw [div_lt_iff₀ hdq]
    have : ((2 * (a % d) : ℕ) : ℚ) < d := by exact_mod_cast h
    push_cast at this
    linarith
  have hgt : d < 2 * (a % d) → 1 / 2 < ((a % d : ℕ) : ℚ) / d := fun h => by
    rw [lt_div_iff₀ hdq]
    have : (d : ℚ) < ((2 * (a % d) : ℕ) : ℚ) := by exact_mod_cast h
    push_cast at this
    linarith
  have heq : 2 * (a % d) = d → ((a % d : ℕ) : ℚ) / d = 1 / 2 := fun h => by
    rw [div_eq_iff hdq.ne']
    have : ((2 * (a % d) : ℕ) : ℚ) = d := by exact_mod_cast h
    push_cast at this
    linarith
  unfold Decimal.roundHalfEven
  dsimp only
  rw [hsplit]
  split
  · rename_i hup
    simp only [Bool.or_eq_true, decide_eq_true_eq, Bool.and_eq_true, beq_iff_eq] at hup
    rcases hup with hup | ⟨hup, hodd⟩
    · have h1 := hgt hup
      refine ⟨?_, ?_, fun h => ?_, fun h => ?_⟩ <;> push_cast at * <;> linarith
    · have h2 := heq hup
      refine ⟨?_, ?_, fun _ => by omega, fun h => ?_⟩ <;> push_cast at * <;> linarith
  · rename_i hdown
    simp only [Bool.or_eq_true, decide_eq_true_eq, Bool.and_eq_true, beq_iff_eq, not_or,
      not_and] at hdown
    obtain ⟨hle, hodd⟩ := hdown
    refine ⟨by linarith, ?_, fun h => by linarith, fun h => ?_⟩
    · rcases Nat.lt_or_ge (2 * (a % d)) d with h | h
      · linarith [hlt h]
      · linarith [heq (by omega)]
    · have h2 : ((a % d : ℕ) : ℚ) / d = 1 / 2 := by linarith
      have hne : 2 * (a % d) = d := by
        rcases Nat.lt_trichotomy (2 * (a % d)) d with h' | h' | h'
        · linarith [hlt h']
        · exact h'
        · exact absurd h' (by omega)
      have := hodd hne
      omega

/-- The reader's integer rounding of `x / d` is the half-even rounding of the numerator of `x`
over `x.den * d`, so it rounds `x / d` to nearest, a half going to the even neighbour. -/
theorem roundHalfEvenFrac_eq {x : Frac} {d M : ℕ} (hx : 0 < x.den) (hd : 0 < d)
    (h : RoundsTo (x.toRat / d) M) : nearestBits.roundHalfEvenFrac x d = M := by
  have hfrac : nearestBits.roundHalfEvenFrac x d = roundHalfEven x.num (x.den * d) := rfl
  have hr := roundsTo_roundHalfEven x.num (Nat.mul_pos hx hd)
  rw [Nat.cast_mul, ← div_div] at hr
  rw [hfrac]
  exact hr.unique h

/-! ## The reader on the interval of a magnitude -/

variable {b : Binary} {r : ℚ}

theorem Binary.Brackets.ge_mul (hm : 0 < b.man) (h : b.Brackets r) :
    (b.man - if b.lowerClose then 1 / 4 else 1 / 2 : ℚ) ≤ r / 2 ^ b.exp := by
  rw [le_div_iff₀ (by positivity), ← toRat_lower hm]
  exact h.lower_le

theorem Binary.Brackets.le_mul (h : b.Brackets r) : r / 2 ^ b.exp ≤ b.man + 1 / 2 := by
  rw [div_le_iff₀ (by positivity), ← toRat_upper]
  exact h.le_upper

/-- Inside the interval, and not below the power of two that starts the binade, the value
measured in units of the last bit rounds to the significand. -/
theorem Binary.Brackets.roundsTo (hm : 0 < b.man) (h : b.Brackets r)
    (hc : b.lowerClose = true → (b.man : ℚ) ≤ r / 2 ^ b.exp) :
    RoundsTo (r / 2 ^ b.exp) b.man := by
  have hE : (0 : ℚ) < 2 ^ b.exp := by positivity
  have hge := h.ge_mul hm
  refine ⟨?_, h.le_mul, fun hlo => ?_, fun hhi => ?_⟩
  · cases hl : b.lowerClose
    · simpa [hl] using hge
    · linarith [hc hl]
  · cases hl : b.lowerClose
    · refine h.even_of_eq_lower ?_
      rw [toRat_lower hm, hl, if_neg Bool.false_ne_true, ← hlo]
      field_simp
    · linarith [hc hl]
  · refine h.even_of_eq_upper ?_
    rw [toRat_upper, ← hhi]
    field_simp

variable {d : ℕ} {x x' : ℤ}

/-- Away from its shortcuts, the reader rounds `d · 10^x` on the grid `2^q` of its binade,
`q = max (e - 52) (-1074)` for the floor logarithm `e`, and packs the rounded significand with
the biased exponent. -/
theorem nearestBits_eq_round (hd : 0 < d) (hlo : ¬x + decimalLength d < -324)
    (hhi : ¬x + decimalLength d > 309) {e : ℤ} (he1 : (2 : ℚ) ^ e ≤ d * 10 ^ x)
    (he2 : (d : ℚ) * 10 ^ x < 2 ^ (e + 1)) {M : ℕ}
    (hM : RoundsTo (d * 10 ^ x / 2 ^ max (e - 52) (-1074)) M) :
    nearestBits d x =
      min (if e < -1022 then M else (e + 1022).toNat * 2 ^ 52 + M) infinityBits := by
  set v := Frac.scaled d 0 x with hvdef
  have hv : v.toRat = d * 10 ^ x := by simp [hvdef]
  have hlog : v.log2 = e :=
    Frac.log2_eq_of_bounds (Frac.num_scaled_pos hd 0 x) (Frac.den_scaled_pos _ _ _)
      (hv ▸ he1) (hv ▸ he2)
  have hq : (if e < -1022 then (-1074 : ℤ) else e - 52) = max (e - 52) (-1074) := by
    split <;> omega
  -- the numerator scaled by `2^-q` over the denominator is the value in units of `2^q`
  have hr : (Frac.scaled v.num (-max (e - 52) (-1074)) 0).toRat / v.den =
      d * 10 ^ x / 2 ^ max (e - 52) (-1074) := by
    rw [Frac.toRat_scaled, ← hv, Frac.toRat, zpow_neg, zpow_zero]
    field_simp
  have hround : nearestBits.roundHalfEvenFrac (Frac.scaled v.num (-max (e - 52) (-1074)) 0)
      v.den = M :=
    roundHalfEvenFrac_eq (Frac.den_scaled_pos _ _ _) (Frac.den_scaled_pos _ _ _) (hr ▸ hM)
  unfold nearestBits
  simp only [Nat.pos_iff_ne_zero.1 hd, hlo, hhi, if_false, ← hvdef, hlog, hq, hround]

/-- Below `10^-325` lies below half the least double. -/
theorem ten_zpow_lt_half_least : (10 : ℚ) ^ (-325 : ℤ) < 2 ^ (-1075 : ℤ) := by
  have h : (2 : ℚ) ^ 1075 < 10 ^ 325 := by exact_mod_cast (by decide +kernel : 2 ^ 1075 < 10 ^ 325)
  rw [zpow_neg, zpow_neg, inv_lt_inv₀ (by positivity) (by positivity)]
  exact_mod_cast h

/-- From `10^309` up lies above every double. -/
theorem two_zpow_lt_ten_zpow : (2 : ℚ) ^ (1024 : ℤ) < 10 ^ (309 : ℤ) := by
  have h : (2 : ℚ) ^ 1024 < 10 ^ 309 := by exact_mod_cast (by decide +kernel : 2 ^ 1024 < 10 ^ 309)
  exact_mod_cast h

/-- The digit count of `d` places `d · 10^x` between two powers of ten. -/
theorem decimal_bounds (hd : 0 < d) :
    (10 : ℚ) ^ (x + decimalLength d - 1) ≤ d * 10 ^ x ∧
      (d : ℚ) * 10 ^ x < 10 ^ (x + decimalLength d) := by
  obtain ⟨h1, h2⟩ := zpow_decimalLength_bounds hd
  have hx : (0 : ℚ) < 10 ^ x := by positivity
  rw [sub_add_cancel] at h2
  constructor
  · calc (10 : ℚ) ^ (x + decimalLength d - 1) = 10 ^ ((decimalLength d : ℤ) - 1) * 10 ^ x := by
          rw [← zpow_add₀ (by norm_num)]
          ring_nf
      _ ≤ d * 10 ^ x := mul_le_mul_of_nonneg_right h1 hx.le
  · calc (d : ℚ) * 10 ^ x < 10 ^ (decimalLength d : ℤ) * 10 ^ x := mul_lt_mul_of_pos_right h2 hx
      _ = 10 ^ (x + decimalLength d) := by rw [← zpow_add₀ (by norm_num), add_comm]

/-- Measured against the grid `2^q`, a power of two `2^(q + k)` lies below `r` as `2^k` lies
below `r` in units of `2^q`. -/
theorem two_zpow_add_le_iff (q k : ℤ) (r : ℚ) : (2 : ℚ) ^ (q + k) ≤ r ↔ 2 ^ k ≤ r / 2 ^ q := by
  rw [zpow_add₀ two_ne_zero, le_div_iff₀ (by positivity), mul_comm]

theorem lt_two_zpow_add_iff (q k : ℤ) (r : ℚ) : r < (2 : ℚ) ^ (q + k) ↔ r / 2 ^ q < 2 ^ k := by
  rw [zpow_add₀ two_ne_zero, div_lt_iff₀ (by positivity), mul_comm]

/-- The rounding interval of a finite nonzero magnitude starts at half its grid step and ends
below the top of its binade. -/
theorem Binary.Brackets.binade_bounds (hb : b.Legal) (hm : 0 < b.man) (h : b.Brackets r) :
    2 ^ (b.exp - 1) ≤ r ∧ r < 2 ^ (b.exp + 53) := by
  have hge := h.ge_mul hm
  have hM1 : (1 : ℚ) ≤ b.man := by exact_mod_cast hm
  have hM53 : (b.man : ℚ) + 1 ≤ 2 ^ 53 := by exact_mod_cast hb.man_lt
  constructor
  · rw [sub_eq_add_neg, two_zpow_add_le_iff]
    norm_num
    split_ifs at hge <;> linarith
  · rw [lt_two_zpow_add_iff]
    norm_num
    linarith [h.le_mul]

/-- A decimal in the binades of the doubles takes neither of the reader's shortcuts: its digits
end after `10^-325` and before `10^310`. -/
theorem decimalLength_in_range (hd : 0 < d) (hb : b.Legal)
    (hlo : 2 ^ (b.exp - 1) ≤ (d : ℚ) * 10 ^ x) (hhi : (d : ℚ) * 10 ^ x < 2 ^ (b.exp + 53)) :
    ¬x + decimalLength d < -324 ∧ ¬x + decimalLength d > 309 := by
  obtain ⟨hdec1, hdec2⟩ := decimal_bounds (x := x) hd
  have hexp := hb.exp_ge
  have hexp' := hb.exp_le
  constructor
  · intro hlt
    have := calc (d : ℚ) * 10 ^ x < 10 ^ (x + decimalLength d) := hdec2
      _ ≤ 10 ^ (-325 : ℤ) := zpow_le_zpow_right₀ (by norm_num) (by omega)
      _ < 2 ^ (-1075 : ℤ) := ten_zpow_lt_half_least
      _ ≤ 2 ^ (b.exp - 1) := zpow_le_zpow_right₀ (by norm_num) (by omega)
    linarith
  · intro hgt
    have := calc (2 : ℚ) ^ (b.exp + 53) ≤ 2 ^ (1024 : ℤ) := zpow_le_zpow_right₀ (by norm_num) (by omega)
      _ < 10 ^ (309 : ℤ) := two_zpow_lt_ten_zpow
      _ ≤ 10 ^ (x + decimalLength d - 1) := zpow_le_zpow_right₀ (by norm_num) (by omega)
      _ ≤ d * 10 ^ x := hdec1
    linarith

/-- At the bottom of a binade, below the power of two that starts it, the value measured on the
grid of the binade below rounds up to `2^53`: the significand carries back into the magnitude's
binade. -/
theorem Binary.Brackets.roundsTo_carry (hm : 0 < b.man) (h : b.Brackets r)
    (hlc : b.lowerClose = true) (hman : (b.man : ℚ) = 2 ^ 52) (hlt : r / 2 ^ b.exp < b.man) :
    RoundsTo (r / 2 ^ (b.exp - 1)) (2 ^ 53) := by
  have hge := h.ge_mul hm
  rw [if_pos hlc] at hge
  have ht : r / 2 ^ (b.exp - 1) = 2 * (r / 2 ^ b.exp) := by
    rw [zpow_sub_one₀ two_ne_zero]
    field_simp
  rw [ht]
  refine ⟨?_, ?_, fun _ => by norm_num, fun _ => by norm_num⟩ <;> push_cast <;> linarith

/-- Away from the bottom of its binade, a value of the rounding interval of a magnitude lies on
the reader's grid of that magnitude: its floor logarithm less 52, or the least exponent. -/
theorem Binary.Brackets.grid_eq (hb : b.Legal) (hm : 0 < b.man) (h : b.Brackets r)
    (hc : b.lowerClose = true → (b.man : ℚ) ≤ r / 2 ^ b.exp) :
    max (Int.log 2 r - 52) (-1074) = b.exp := by
  obtain ⟨hr_lo, hr_hi⟩ := h.binade_bounds hb hm
  have hr0 : 0 < r := lt_of_lt_of_le (by positivity) hr_lo
  have hge := h.ge_mul hm
  have hexp := hb.exp_ge
  have he1 : (2 : ℚ) ^ Int.log 2 r ≤ r := by exact_mod_cast Int.zpow_log_le_self one_lt_two hr0
  have he2 : r < 2 ^ (Int.log 2 r + 1) := by
    exact_mod_cast Int.lt_zpow_succ_log_self one_lt_two r
  have hlt : Int.log 2 r < b.exp + 53 :=
    (zpow_lt_zpow_iff_right₀ one_lt_two).1 (lt_of_le_of_lt he1 hr_hi)
  -- above the lowest binade the significand has its full 53 bits, so the logarithm reaches them
  have hgt : -1074 < b.exp → b.exp + 52 ≤ Int.log 2 r := by
    intro hx
    have h52 : (2 : ℚ) ^ 52 ≤ r / 2 ^ b.exp := by
      cases hl : b.lowerClose
      · -- no closer lower neighbour: the significand is past the power of two
        have hne : b.man ≠ 2 ^ 52 := fun h' => by simp [hb.lowerClose_iff.2 ⟨h', hx⟩] at hl
        have hM : (2 : ℚ) ^ 52 + 1 ≤ b.man := by
          exact_mod_cast (show 2 ^ 52 + 1 ≤ b.man by have := hb.normal hx; omega)
        rw [hl, if_neg Bool.false_ne_true] at hge
        linarith
      · have hman : (b.man : ℚ) = 2 ^ 52 := by exact_mod_cast (hb.lowerClose_iff.1 hl).1
        linarith [hc hl]
    have h52' : (2 : ℚ) ^ (b.exp + 52) ≤ r := by
      rw [two_zpow_add_le_iff]
      exact_mod_cast h52
    have := (zpow_lt_zpow_iff_right₀ one_lt_two).1 (lt_of_le_of_lt h52' he2)
    omega
  omega

/-- Every decimal in the rounding interval of a finite nonzero magnitude reads as exactly that
magnitude's bits. -/
theorem nearestBits_eq_bits (hb : b.Legal) (hm : 0 < b.man) (h : b.Brackets (d * 10 ^ x)) :
    nearestBits d x = b.bits := by
  set r : ℚ := d * 10 ^ x with hr
  have hexp := hb.exp_ge
  have hexp' := hb.exp_le
  have hman := hb.man_lt
  obtain ⟨hr_lo, hr_hi⟩ := h.binade_bounds hb hm
  have hr0 : 0 < r := lt_of_lt_of_le (by positivity) hr_lo
  have hd : 0 < d := by
    rcases Nat.eq_zero_or_pos d with h0 | h0
    · simp [hr, h0] at hr0
    · exact h0
  obtain ⟨hlen_lo, hlen_hi⟩ := decimalLength_in_range hd hb hr_lo hr_hi
  by_cases hc : b.lowerClose = true ∧ r / 2 ^ b.exp < b.man
  · -- below the power of two that starts the binade: the reader works one binade lower
    obtain ⟨hlc, hlt⟩ := hc
    obtain ⟨hman52, hexp0⟩ := hb.lowerClose_iff.1 hlc
    have hman' : (b.man : ℚ) = 2 ^ 52 := by exact_mod_cast hman52
    have hge := h.ge_mul hm
    rw [if_pos hlc] at hge
    have he1 : (2 : ℚ) ^ (b.exp + 51) ≤ r := by
      rw [two_zpow_add_le_iff]
      norm_num
      linarith
    have he2 : r < 2 ^ (b.exp + 51 + 1) := by
      rw [add_assoc, lt_two_zpow_add_iff]
      norm_num
      linarith
    have hq : max (b.exp + 51 - 52) (-1074) = b.exp - 1 := by omega
    rw [nearestBits_eq_round hd hlen_lo hlen_hi he1 he2 (hq ▸ h.roundsTo_carry hm hlc hman' hlt),
      if_neg (by omega)]
    simp only [Binary.bits, infinityBits]
    omega
  · -- otherwise the reader's binade is the magnitude's and the significand comes back
    have hcE : b.lowerClose = true → (b.man : ℚ) ≤ r / 2 ^ b.exp :=
      fun hl => not_lt.1 fun hlt => hc ⟨hl, hlt⟩
    have hq := h.grid_eq hb hm hcE
    have he1 : (2 : ℚ) ^ Int.log 2 r ≤ r := by exact_mod_cast Int.zpow_log_le_self one_lt_two hr0
    have he2 : r < 2 ^ (Int.log 2 r + 1) := by
      exact_mod_cast Int.lt_zpow_succ_log_self one_lt_two r
    rw [nearestBits_eq_round hd hlen_lo hlen_hi he1 he2 (hq ▸ h.roundsTo hm hcE)]
    simp only [Binary.bits, infinityBits]
    split <;> omega

/-- With the sign of a finite double, the magnitude's bits give back the double itself. -/
theorem nearest_of_bits {x : Float} (h : Kind.ofFloat x = .finite b) (hb : nearestBits d x' = b.bits) :
    nearest b.neg d x' = x := by
  have h1 := Kind.bits_of_ofBits h
  have h2 := Kind.neg_of_ofBits h
  have hw := x.toBits.toNat_lt
  have hword : UInt64.ofNat (if b.neg then b.bits + 2 ^ 63 else b.bits) = x.toBits := by
    apply UInt64.toNat_inj.1
    rw [UInt64.toNat_ofNat']
    split <;> simp_all <;> omega
  unfold nearest
  rw [hb]
  dsimp only
  rw [hword, Double.ofBits_toBits]

end PinWave.Decimal
