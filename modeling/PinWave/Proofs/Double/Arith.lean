import PinWave.Proofs.Double.Round
import PinWave.Proofs.Double.Bits
/-!
# The arithmetic of doubles

A double unpacks into a sign, a significand and an exponent in canonical form, and every
operation packs its rounded result back, turning an exponent past the largest into an infinity
(`Double.unpack_pack`). On positive doubles, multiplication, division and the conversion of a
whole number give the nearest double to the exact result (`Double.unpack_mul`,
`Double.unpack_div`, `Double.unpack_ofNat`), comparison compares values (`Double.lt_iff`), and
the conversion to a 64-bit word cuts the value down to a whole number
(`Double.toNat_toUInt64`).

## Main definitions
* `Double.InRange`: an unpacked double whose exponent fits the packed form.
* `Double.bounded`: a rounded result as a double, an infinity past the exponent range.
-/

open Float.Model Float.Model.UnpackedFloat

namespace PinWave.Double

/-! ## Unpacking and packing -/

/-- An unpacked double whose exponent fits the packed form: at most `971` when finite. -/
def InRange : UnpackedFloat → Prop
  | .finite _ _ e _ => e ≤ 971
  | _ => True

/-- A result rounded on an unbounded exponent range, as a double: past the largest exponent it
is an infinity. -/
def bounded : UnpackedFloat → UnpackedFloat
  | .finite s m e h => if 971 < e then .infinity s else .finite s m e h
  | u => u

theorem exponentBias_binary64 : Format.binary64.exponentBias = 1023 := by decide

theorem ofBitVec_toBitVec (s : Sign) : Sign.ofBitVec s.toBitVec = s := by
  cases s <;> rfl

theorem unpackSign_packComponents (s : Sign) (E : BitVec Format.binary64.exponentBits)
    (M : BitVec Format.binary64.mantissaBitsWithoutImplicit) :
    unpackSign (packComponents .binary64 s E M) = s.toBitVec := by
  apply BitVec.eq_of_getLsbD_eq
  intro i hi
  obtain rfl : i = 0 := by omega
  simp only [unpackSign, packComponents, BitVec.getLsbD_cast, BitVec.getLsbD_extractLsb]
  rw [BitVec.getLsbD_append, if_neg (by decide), BitVec.getLsbD_append, if_neg (by decide)]
  cases s <;> rfl

/-- Every word unpacks into the canonical form, on the exponent range of doubles. -/
theorem canonical_unpack (v : BitVec Format.binary64.numBits) :
    Canonical (UnpackedFloat.unpack .binary64 v) ∧ InRange (UnpackedFloat.unpack .binary64 v) := by
  rw [UnpackedFloat.unpack]
  split
  · split <;> exact ⟨trivial, trivial⟩
  · rename_i hexp
    split
    · rename_i hexp0
      split
      · exact ⟨trivial, trivial⟩
      · -- a subnormal: fewer than 53 bits on the least exponent
        have hE : (unpackExponent v).toNat = 0 := by rw [hexp0]; rfl
        have hMlt : (unpackMantissa v).toNat < 2 ^ 52 := (unpackMantissa v).isLt
        simp only [Canonical, InRange, hE, exponentBias_binary64]
        refine ⟨⟨by omega, by omega, .inr (by omega)⟩, by omega⟩
    · rename_i hexp0
      -- a normal number: the implicit bit makes the significand 53 bits long
      obtain ⟨hE0, hE1, happ⟩ := normal_fields hexp hexp0
      have hMlt : (unpackMantissa v).toNat < 2 ^ 52 := (unpackMantissa v).isLt
      simp only [Canonical, InRange, happ, exponentBias_binary64]
      refine ⟨⟨by omega, by omega, .inl (by omega)⟩, by omega⟩

/-- Packing a canonical result and unpacking it again gives the result back, or an infinity when
its exponent is past the range. -/
theorem unpack_pack {u : UnpackedFloat} (hc : Canonical u) :
    UnpackedFloat.unpack .binary64 (UnpackedFloat.pack .binary64 u) = bounded u := by
  cases u with
  | notANumber => rfl
  | infinity s => cases s <;> rfl
  | zero s => cases s <;> rfl
  | finite s m e hm =>
    obtain ⟨hlt, hmin, htop⟩ := hc
    have hbias : (e + Format.binary64.exponentBias + Format.binary64.mantissaBitsWithoutImplicit).toNat
        = (e + 1075).toNat := by
      rw [exponentBias_binary64]
      show (e + ((1023 : ℕ) : ℤ) + ((52 : ℕ) : ℤ)).toNat = (e + 1075).toNat
      omega
    simp only [bounded]
    split
    · -- past the range the biased exponent is all ones
      rename_i hbig
      simp only [UnpackedFloat.pack]
      rw [if_pos (by rw [hbias]; simp; omega)]
      cases s <;> rfl
    · rename_i hle
      have hE : (BitVec.ofNat Format.binary64.exponentBits (e + 1075).toNat).toNat = (e + 1075).toNat := by
        simp only [BitVec.toNat_ofNat]
        exact Nat.mod_eq_of_lt (by simp; omega)
      simp only [UnpackedFloat.pack]
      rw [if_neg (by rw [hbias]; simp; omega), hbias]
      by_cases hn : 2 ^ 52 ≤ m
      · -- normal: the top bit is the implicit one
        have hlog : m.log2 = 52 := by
          rw [Nat.log2_eq_iff hm.ne']
          omega
        rw [if_pos (by simp [mantissaBits_binary64, hlog])]
        have happ : (1#1 ++ BitVec.ofNat Format.binary64.mantissaBitsWithoutImplicit m).toNat = m := by
          have hmod : m % 2 ^ 52 < 2 ^ 52 := Nat.mod_lt _ (by positivity)
          rw [BitVec.toNat_append, BitVec.toNat_ofNat, BitVec.toNat_ofNat]
          show (1 % 2 ^ 1) <<< 52 ||| m % 2 ^ 52 = m
          rw [← Nat.shiftLeft_add_eq_or_of_lt hmod, Nat.shiftLeft_eq]
          omega
        simp only [UnpackedFloat.unpack, unpackMantissa_packComponents,
          unpackExponent_packComponents, unpackSign_packComponents, ofBitVec_toBitVec]
        rw [if_neg (fun h => by have := congrArg BitVec.toNat h; rw [hE] at this; simp at this; omega),
          if_neg (fun h => by have := congrArg BitVec.toNat h; rw [hE] at this; simp at this; omega)]
        simp only [happ, hE, exponentBias_binary64, finite.injEq, true_and]
        omega
      · -- subnormal: the least exponent and no implicit bit
        have he : e = -1074 := htop.resolve_left hn
        subst he
        have hlog : m.log2 < 52 := (Nat.log2_lt hm.ne').2 (by omega)
        rw [if_neg (by simp [mantissaBits_binary64]; omega)]
        have hM : (BitVec.ofNat Format.binary64.mantissaBitsWithoutImplicit m).toNat = m := by
          simp only [BitVec.toNat_ofNat]
          exact Nat.mod_eq_of_lt (by simp; omega)
        simp only [UnpackedFloat.unpack, unpackMantissa_packComponents,
          unpackExponent_packComponents, unpackSign_packComponents, ofBitVec_toBitVec]
        have hM0 : BitVec.ofNat 52 m ≠ 0#52 := fun h => by
          have := congrArg BitVec.toNat h
          rw [hM] at this
          simp at this
          omega
        rw [if_neg (by decide), if_pos trivial, dif_neg hM0]
        simp only [hM, exponentBias_binary64, finite.injEq, true_and]
        rfl

/-- A result below `2^1000` keeps its exponent in range, carry included. -/
theorem bounded_nearest {x : ℚ} (hx : 0 < x) (h : x < 2 ^ 1000) : bounded (nearest x) = nearest x := by
  have hlog : Int.log 2 x < 1000 := by
    refine (Int.lt_zpow_iff_log_lt (R := ℚ) (b := 2) (x := 1000) (by norm_num) hx).1 ?_
    rw [Nat.cast_ofNat]
    exact_mod_cast h
  have hg : gridExp x ≤ 948 := by
    unfold gridExp
    omega
  unfold nearest canon
  split
  · rfl
  · split <;> simp only [bounded] <;> rw [if_neg (by omega)]

/-! ## Operations on positive doubles -/

theorem canonical_toModel_unpack (x : Float) :
    Canonical x.toModel.unpack ∧ InRange x.toModel.unpack :=
  canonical_unpack _

/-- The exact product of two canonical significands needs no shift up: either it has at least 53
bits, or both factors are subnormal and it lies far below the least exponent. -/
theorem mul_exponent_le {m₁ m₂ : ℕ} {e₁ e₂ : ℤ} (h₁ : 0 < m₁) (h₂ : 0 < m₂)
    (hc₁ : Canonical (.finite .positive m₁ e₁ h₁)) (hc₂ : Canonical (.finite .positive m₂ e₂ h₂)) :
    e₁ + e₂ ≤ Format.binary64.targetExponent (totalExponent (m₁ * m₂) (e₁ + e₂)) := by
  obtain ⟨-, hmin₁, htop₁⟩ := hc₁
  obtain ⟨-, hmin₂, htop₂⟩ := hc₂
  simp only [Format.targetExponent, totalExponent, mantissaBits_binary64, minExponent_binary64]
  by_cases hbig : 2 ^ 52 ≤ m₁ * m₂
  · have := (Nat.le_log2 (Nat.mul_pos h₁ h₂).ne').2 hbig
    omega
  · -- a product below `2^52` has two factors below `2^52`, so both are subnormal
    have hs₁ : ¬ 2 ^ 52 ≤ m₁ := fun h => hbig (h.trans (Nat.le_mul_of_pos_right _ h₂))
    have hs₂ : ¬ 2 ^ 52 ≤ m₂ := fun h => hbig (h.trans (Nat.le_mul_of_pos_left _ h₁))
    have := htop₁.resolve_left hs₁
    have := htop₂.resolve_left hs₂
    omega

/-- The product of two positive doubles is the double nearest to the exact product. -/
theorem unpack_mul {a b : Float} {m₁ m₂ : ℕ} {e₁ e₂ : ℤ} {h₁ : 0 < m₁} {h₂ : 0 < m₂}
    (ha : a.toModel.unpack = .finite .positive m₁ e₁ h₁)
    (hb : b.toModel.unpack = .finite .positive m₂ e₂ h₂) :
    (a * b).toModel.unpack = bounded (nearest (m₁ * 2 ^ e₁ * (m₂ * 2 ^ e₂))) := by
  have hc₁ := (canonical_toModel_unpack a).1
  have hc₂ := (canonical_toModel_unpack b).1
  rw [ha] at hc₁
  rw [hb] at hc₂
  have hround := roundWithAccuracy_eq (by positivity : (0 : ℚ) < ((m₁ * m₂ : ℕ) : ℚ))
    (mul_exponent_le h₁ h₂ hc₁ hc₂) (stands_exact (m₁ * m₂))
  have hval : ((m₁ * m₂ : ℕ) : ℚ) * 2 ^ (e₁ + e₂) = m₁ * 2 ^ e₁ * (m₂ * 2 ^ e₂) := by
    rw [zpow_add₀ two_ne_zero]
    push_cast
    ring
  rw [hval] at hround
  have hprod : (a * b).toModel.unpack =
      UnpackedFloat.unpack .binary64 (UnpackedFloat.pack .binary64
        (roundWithAccuracy .binary64 .positive (m₁ * m₂) (e₁ + e₂) .exact)) := by
    show UnpackedFloat.unpack .binary64 (UnpackedFloat.pack .binary64
      (UnpackedFloat.mul .binary64 a.toModel.unpack b.toModel.unpack)) = _
    rw [ha, hb]
    rfl
  rw [hprod, hround, unpack_pack (canonical_nearest (by positivity))]

/-- The bits division keeps: the whole part `q` of a quotient and the accuracy of its remainder
`r` out of `d`. -/
theorem stands_fraction (q : ℕ) {r d : ℕ} (hr : r < d) :
    Stands (ExtendedMantissa.ofMantissaAndAccuracy q (accuracyOfFraction r d)) (q + r / d) := by
  have hd : (0 : ℚ) < d := by exact_mod_cast (Nat.zero_le r).trans_lt hr
  have hf : (r : ℚ) / d < 1 := by
    rw [div_lt_one hd]
    exact_mod_cast hr
  unfold accuracyOfFraction
  split
  · rename_i h0
    subst h0
    simp [Stands, ExtendedMantissa.ofMantissaAndAccuracy]
  · rename_i h0
    have hf0 : (0 : ℚ) < r / d := div_pos (by exact_mod_cast Nat.pos_of_ne_zero h0) hd
    -- the remainder against half of `d`, through `2 r` against `d`
    have key : ∀ c : ℚ, c = 1 / 2 → ((r : ℚ) / d < c ↔ 2 * r < d) ∧ ((r : ℚ) / d = c ↔ 2 * r = d) := by
      rintro c rfl
      constructor
      · rw [div_lt_iff₀ hd, ← Nat.cast_lt (α := ℚ)]
        push_cast
        constructor <;> intro h <;> linarith
      · rw [div_eq_iff hd.ne', ← Nat.cast_inj (R := ℚ)]
        push_cast
        constructor <;> intro h <;> linarith
    obtain ⟨hlt, heq⟩ := key (1 / 2) rfl
    cases hc : compare (2 * r) d with
    | lt =>
      have := hlt.2 (Nat.compare_eq_lt.1 hc)
      show (q : ℚ) < q + r / d ∧ (q : ℚ) + r / d < q + 1 / 2
      exact ⟨by linarith, by linarith⟩
    | eq =>
      have := heq.2 (Nat.compare_eq_eq.1 hc)
      show (q : ℚ) + r / d = q + 1 / 2
      rw [this]
    | gt =>
      have h2 := Nat.compare_eq_gt.1 hc
      have : ¬ (r : ℚ) / d < 1 / 2 := fun h => by have := hlt.1 h; omega
      have : (r : ℚ) / d ≠ 1 / 2 := fun h => by have := heq.1 h; omega
      have : (1 : ℚ) / 2 < r / d := lt_of_le_of_ne (not_lt.1 ‹_›) (Ne.symm ‹_›)
      show (q : ℚ) + 1 / 2 < q + r / d ∧ (q : ℚ) + r / d < q + 1
      exact ⟨by linarith, by linarith⟩

theorem log2_mul_two_pow {m : ℕ} (hm : m ≠ 0) (k : ℕ) : (m * 2 ^ k).log2 = m.log2 + k := by
  have h₁ := Nat.log2_self_le hm
  have h₂ := (Nat.lt_log2_self (n := m))
  rw [Nat.log2_eq_iff (Nat.mul_ne_zero hm (by positivity)), pow_add, pow_succ, pow_add]
  constructor
  · exact Nat.mul_le_mul_right _ h₁
  · calc m * 2 ^ k < 2 ^ (m.log2 + 1) * 2 ^ k := Nat.mul_lt_mul_of_pos_right h₂ (by positivity)
      _ = 2 ^ m.log2 * 2 ^ k * 2 := by rw [pow_succ]; ring

/-- The quotient division keeps needs no shift up: above the subnormals, the shift of the dividend
leaves a quotient of at least 53 bits. -/
theorem div_exponent_le {m₁ m₂ : ℕ} (e₁ e₂ : ℤ) (h₁ : 0 < m₁) (h₂ : 0 < m₂) :
    min (e₁ - e₂) (Format.binary64.targetExponent (totalExponent m₁ e₁ - totalExponent m₂ e₂)) ≤
      Format.binary64.targetExponent (totalExponent ((m₁ <<< (e₁ - e₂ -
        min (e₁ - e₂) (Format.binary64.targetExponent
          (totalExponent m₁ e₁ - totalExponent m₂ e₂))).toNat) / m₂)
        (min (e₁ - e₂) (Format.binary64.targetExponent
          (totalExponent m₁ e₁ - totalExponent m₂ e₂)))) := by
  generalize ht : min (e₁ - e₂) (Format.binary64.targetExponent
    (totalExponent m₁ e₁ - totalExponent m₂ e₂)) = t
  simp only [Format.targetExponent, totalExponent, mantissaBits_binary64,
    minExponent_binary64] at ht ⊢
  by_cases hsub : t ≤ -1074
  · exact le_max_of_le_right hsub
  · -- above the subnormals the shift is at least `log₂ m₂ - log₂ m₁ + 53`
    have hk : (m₂.log2 + 53 : ℤ) ≤ m₁.log2 + (e₁ - e₂ - t).toNat := by omega
    have hq : 2 ^ 52 ≤ (m₁ <<< (e₁ - e₂ - t).toNat) / m₂ := by
      rw [Nat.le_div_iff_mul_le h₂, Nat.shiftLeft_eq]
      calc 2 ^ 52 * m₂ ≤ 2 ^ 52 * 2 ^ (m₂.log2 + 1) :=
            Nat.mul_le_mul_left _ (Nat.lt_log2_self).le
        _ = 2 ^ (m₂.log2 + 53) := by rw [← pow_add]; ring_nf
        _ ≤ 2 ^ (m₁.log2 + (e₁ - e₂ - t).toNat) := Nat.pow_le_pow_right (by norm_num) (by omega)
        _ = 2 ^ m₁.log2 * 2 ^ (e₁ - e₂ - t).toNat := pow_add _ _ _
        _ ≤ m₁ * 2 ^ (e₁ - e₂ - t).toNat := Nat.mul_le_mul_right _ (Nat.log2_self_le h₁.ne')
    have := (Nat.le_log2 (by positivity)).2 hq
    omega

/-- The quotient of two positive doubles is the double nearest to the exact quotient. -/
theorem unpack_div {a b : Float} {m₁ m₂ : ℕ} {e₁ e₂ : ℤ} {h₁ : 0 < m₁} {h₂ : 0 < m₂}
    (ha : a.toModel.unpack = .finite .positive m₁ e₁ h₁)
    (hb : b.toModel.unpack = .finite .positive m₂ e₂ h₂) :
    (a / b).toModel.unpack = bounded (nearest (m₁ * 2 ^ e₁ / (m₂ * 2 ^ e₂))) := by
  generalize ht : min (e₁ - e₂) (Format.binary64.targetExponent
    (totalExponent m₁ e₁ - totalExponent m₂ e₂)) = t
  have hle := div_exponent_le e₁ e₂ h₁ h₂
  rw [ht] at hle
  have htk : t + ((e₁ - e₂ - t).toNat : ℤ) = e₁ - e₂ := by omega
  generalize hM : m₁ <<< (e₁ - e₂ - t).toNat = M at hle
  have hM' : (M : ℚ) = m₁ * 2 ^ (e₁ - e₂ - t).toNat := by
    rw [← hM, Nat.shiftLeft_eq]
    push_cast
    ring
  -- the bits kept stand for `M / m₂`, on exponent `t`
  have hm₂ : (0 : ℚ) < m₂ := by exact_mod_cast h₂
  have hsplit : ((M / m₂ : ℕ) : ℚ) + ((M % m₂ : ℕ) : ℚ) / m₂ = (M : ℚ) / m₂ := by
    have e : (M : ℚ) = (M / m₂ : ℕ) * m₂ + (M % m₂ : ℕ) := by exact_mod_cast (Nat.div_add_mod' M m₂).symm
    rw [e]
    field_simp
  have hv := stands_fraction (M / m₂) (Nat.mod_lt M h₂)
  rw [hsplit] at hv
  have hpos : (0 : ℚ) < (M : ℚ) / m₂ := by
    rw [hM']
    positivity
  have hround := roundWithAccuracy_eq hpos hle hv
  have hval : (M : ℚ) / m₂ * 2 ^ t = m₁ * 2 ^ e₁ / (m₂ * 2 ^ e₂) := by
    rw [hM', mul_div_right_comm, mul_assoc, ← zpow_natCast, ← zpow_add₀ two_ne_zero,
      add_comm, htk, zpow_sub₀ two_ne_zero]
    field_simp
  rw [hval] at hround
  have hquot : (a / b).toModel.unpack =
      UnpackedFloat.unpack .binary64 (UnpackedFloat.pack .binary64
        (roundWithAccuracy .binary64 .positive (M / m₂) t (accuracyOfFraction (M % m₂) m₂))) := by
    show UnpackedFloat.unpack .binary64 (UnpackedFloat.pack .binary64
      (UnpackedFloat.div .binary64 a.toModel.unpack b.toModel.unpack)) = _
    rw [ha, hb]
    simp only [UnpackedFloat.div, divCore, ht, hM]
    rfl
  rw [hquot, hround, unpack_pack (canonical_nearest (by positivity))]

/-- Rounding a significand with no accuracy bits brings the exponent down to the grid first, so it
gives the nearest double. -/
theorem round_eq {m : ℕ} (e : ℤ) (hm : 0 < m) :
    UnpackedFloat.round .binary64 .positive m e = nearest (m * 2 ^ e) := by
  generalize hT : Format.binary64.targetExponent (totalExponent m e) = T
  have hsame : totalExponent (m <<< (e - T).toNat) (e - (e - T).toNat) = totalExponent m e := by
    simp only [totalExponent, Nat.shiftLeft_eq, log2_mul_two_pow hm.ne']
    push_cast
    ring
  have hround := roundWithAccuracy_eq
    (by rw [Nat.shiftLeft_eq]; positivity : (0 : ℚ) < ((m <<< (e - T).toNat : ℕ) : ℚ))
    (e := e - (e - T).toNat) (by rw [hsame, hT]; omega) (stands_exact _)
  have hval : ((m <<< (e - T).toNat : ℕ) : ℚ) * 2 ^ (e - (e - T).toNat) = m * 2 ^ e := by
    rw [Nat.shiftLeft_eq, zpow_sub₀ two_ne_zero]
    push_cast
    rw [zpow_natCast]
    field_simp
  rw [hval] at hround
  simp only [UnpackedFloat.round, decreaseExponent, hT]
  exact hround

/-- A positive whole number converts to its nearest double. -/
theorem ofNat_eq {n : ℕ} (hn : 0 < n) : UnpackedFloat.ofNat .binary64 n = nearest n := by
  have h := round_eq 0 hn
  rw [zpow_zero, mul_one] at h
  rw [← h]
  simp only [UnpackedFloat.ofNat, UnpackedFloat.ofInt, UnpackedFloat.normalize]
  rw [show compare (n : ℤ) 0 = .gt from Int.compare_eq_gt.2 (by exact_mod_cast hn)]
  rfl

/-- A word converts to the double nearest to its value. -/
theorem unpack_toFloat {n : UInt64} (hn : 0 < n.toNat) : n.toFloat.toModel.unpack = nearest n.toNat := by
  have hlt : (n.toNat : ℚ) < 2 ^ 1000 :=
    calc (n.toNat : ℚ) < 2 ^ 64 := by exact_mod_cast n.toNat_lt
      _ ≤ 2 ^ 1000 := pow_le_pow_right₀ (by norm_num) (by norm_num)
  show UnpackedFloat.unpack .binary64 (UnpackedFloat.pack .binary64
    (UnpackedFloat.ofNat .binary64 n.toNat)) = _
  rw [ofNat_eq hn, unpack_pack (canonical_nearest (by positivity)),
    bounded_nearest (by positivity) hlt]

@[simp] theorem toRat_finite_positive (m : ℕ) (e : ℤ) (h : 0 < m) :
    toRat (.finite .positive m e h) = m * 2 ^ e := by
  simp [toRat, Sign.apply]

/-- A value at least the least subnormal rounds to a positive finite double. -/
theorem exists_finite_nearest {x : ℚ} (hx : (2 : ℚ) ^ (-1074 : ℤ) ≤ x) :
    ∃ m e h, nearest x = .finite .positive m e h := by
  have hx0 : 0 < x := lt_of_lt_of_le (by positivity) hx
  -- on its grid the value is at least one, so it rounds to a nonzero significand
  have hone : (1 : ℚ) ≤ x / 2 ^ gridExp x := by
    by_cases hg : gridExp x = -1074
    · rw [hg, le_div_iff₀ (by positivity), one_mul]
      exact hx
    · have := two_pow_le_div_zpow_gridExp hx0 (lt_of_le_of_ne (le_max_right _ _) (Ne.symm hg))
      linarith [show (1 : ℚ) ≤ 2 ^ 52 from one_le_pow₀ (by norm_num)]
  have hM : 1 ≤ rne (x / 2 ^ gridExp x) := by
    have h := rne_mono (by norm_num) hone
    rwa [show ((1 : ℚ)) = ((1 : ℕ) : ℚ) by norm_num, rne_natCast] at h
  unfold nearest canon
  rw [dif_neg (by omega)]
  split
  · exact ⟨2 ^ 52, _, Nat.two_pow_pos 52, rfl⟩
  · exact ⟨_, _, by omega, rfl⟩

/-- A whole number below `2^53` is a double. -/
theorem toRat_nearest_natCast {n : ℕ} (hn : n < 2 ^ 53) : toRat (nearest n) = n := by
  rcases Nat.eq_zero_or_pos n with rfl | hpos
  · simp [nearest, canon, toRat, rne_zero]
  · have hg : gridExp n ≤ 0 := by
      have hlog : Int.log 2 (n : ℚ) < 53 := by
        refine (Int.lt_zpow_iff_log_lt (R := ℚ) (b := 2) (x := 53) (by norm_num)
          (by exact_mod_cast hpos)).1 ?_
        rw [Nat.cast_ofNat]
        exact_mod_cast hn
      unfold gridExp
      omega
    have hk : (n : ℚ) / 2 ^ gridExp n = ((n * 2 ^ (-gridExp n).toNat : ℕ) : ℚ) := by
      push_cast
      rw [← zpow_natCast, Int.toNat_of_nonneg (by omega), zpow_neg, div_eq_mul_inv]
    rw [toRat_nearest, hk, rne_natCast, Nat.cast_mul, Nat.cast_pow, Nat.cast_ofNat, mul_assoc,
      ← zpow_natCast, ← zpow_add₀ two_ne_zero, Int.toNat_of_nonneg (by omega)]
    simp

/-- A whole number below `2^53` converts to itself. -/
theorem unpack_natToFloat {n : ℕ} (hpos : 0 < n) (hn : n < 2 ^ 53) :
    n.toFloat.toModel.unpack = nearest n := by
  have hu : (n.toUInt64).toFloat.toModel.unpack = nearest n := by
    rw [unpack_toFloat (by simp; omega)]
    simp only [Nat.toUInt64_eq, UInt64.toNat_ofNat', Nat.mod_eq_of_lt (show n < 2 ^ 64 by omega)]
  obtain ⟨m, e, h, hme⟩ := exists_finite_nearest (x := (n : ℚ))
    (le_trans (zpow_le_one_of_nonpos₀ (by norm_num) (by norm_num)) (by exact_mod_cast hpos))
  have hval : (m : ℚ) * 2 ^ e = n := by
    rw [← toRat_finite_positive m e h, ← hme, toRat_nearest_natCast hn]
  have hone : (Float.exactlyRepresentablePowersOfTen[0]).toModel.unpack =
      .finite .positive (2 ^ 52) (-52) (by positivity) := rfl
  have hlt : (n : ℚ) < 2 ^ 1000 :=
    calc (n : ℚ) < 2 ^ 53 := by exact_mod_cast hn
      _ ≤ 2 ^ 1000 := pow_le_pow_right₀ (by norm_num) (by norm_num)
  show (Float.ofScientific n false 0).toModel.unpack = _
  unfold Float.ofScientific
  rw [dif_pos ⟨hn, by norm_num⟩]
  dsimp only
  rw [if_neg Bool.false_ne_true, unpack_mul (hu.trans hme) hone, hval]
  have h1 : ((2 ^ 52 : ℕ) : ℚ) * 2 ^ (-52 : ℤ) = 1 := by norm_num
  rw [h1, mul_one, bounded_nearest (by exact_mod_cast hpos) hlt]

/-! ## Conversion to a word and comparison -/

theorem mantissa_shiftRight (em : ExtendedMantissa) (n : ℕ) :
    (em >>> n).mantissa = em.mantissa / 2 ^ n := by
  change (n.repeat ExtendedMantissa.shiftRightOne em).mantissa = _
  induction n with
  | zero => simp [Nat.repeat]
  | succ n ih =>
    rw [Nat.repeat]
    simp only [ExtendedMantissa.shiftRightOne, ih, Nat.div_div_eq_div_mul, pow_succ]

/-- The conversion to a word cuts a positive double down to a whole number and saturates at the
largest word. -/
theorem toNat_toUInt64 {x : Float} {m : ℕ} {e : ℤ} {h : 0 < m}
    (hx : x.toModel.unpack = .finite .positive m e h) :
    x.toUInt64.toNat = min (m * 2 ^ e.toNat / 2 ^ (-e).toNat) (2 ^ 64 - 1) := by
  have hk : (0 - (e - (e.toNat : ℤ))).toNat = (-e).toNat := by omega
  show (UInt64.ofNatClamp (x.toModel.unpack.toInt 0 (UInt64.size - 1)).toNat).toNat = _
  rw [hx]
  simp only [UnpackedFloat.toInt, roundToInt, decreaseExponent, shiftToExponent,
    mantissa_shiftRight, mantissa_ofMantissaAndAccuracy, Nat.shiftLeft_eq, Sign.apply,
    Int.toNat_natCast, Int.sub_zero]
  rw [hk]
  by_cases hlt : m * 2 ^ e.toNat / 2 ^ (-e).toNat < UInt64.size
  · rw [UInt64.toNat_ofNatClamp_of_lt hlt, min_eq_left (by simp [UInt64.size] at hlt; omega)]
  · rw [UInt64.toNat_ofNatClamp_of_le (by omega), min_eq_right (by simp [UInt64.size] at hlt; omega)]
    rfl

/-- A positive double of whole value below `2^64` converts to that value. -/
theorem toNat_toUInt64_of_eq {x : Float} {m n : ℕ} {e : ℤ} {h : 0 < m}
    (hx : x.toModel.unpack = .finite .positive m e h) (hv : (m : ℚ) * 2 ^ e = n)
    (hn : n < 2 ^ 64) : x.toUInt64.toNat = n := by
  rw [toNat_toUInt64 hx]
  -- clear the power of two with a negative exponent
  have he : (2 : ℚ) ^ e = 2 ^ e.toNat / 2 ^ (-e).toNat := by
    rw [← zpow_natCast, ← zpow_natCast, ← zpow_sub₀ two_ne_zero]
    congr 1
    omega
  have hnat : m * 2 ^ e.toNat = n * 2 ^ (-e).toNat := by
    rw [he, mul_div_assoc', div_eq_iff (by positivity)] at hv
    exact_mod_cast hv
  rw [hnat, Nat.mul_div_cancel _ (by positivity)]
  omega

/-- NaN, the zeros and minus infinity convert to the word zero. -/
theorem toNat_toUInt64_of_toInt {x : Float} (hx : x.toModel.unpack.toInt 0 (UInt64.size - 1) = 0) :
    x.toUInt64.toNat = 0 := by
  show (UInt64.ofNatClamp (x.toModel.unpack.toInt 0 (UInt64.size - 1)).toNat).toNat = 0
  rw [hx]
  rfl

theorem toNat_toUInt64_of_zero {x : Float} {s : Sign} (hx : x.toModel.unpack = .zero s) :
    x.toUInt64.toNat = 0 :=
  toNat_toUInt64_of_toInt (by rw [hx]; rfl)

theorem lt_iff_unpack {a b : Float} : a < b ↔ a.toModel.unpack.lt b.toModel.unpack = true := by
  show decide _ = true ↔ _
  rw [decide_eq_true_iff]
  rfl

/-- Between canonical positive doubles a smaller exponent means a smaller value: the larger
exponent is above the subnormals, so its significand has its top bit set. -/
theorem lt_of_exponent_lt {m₁ m₂ : ℕ} {e₁ e₂ : ℤ} {h₁ : 0 < m₁} {h₂ : 0 < m₂}
    (hc₁ : Canonical (.finite .positive m₁ e₁ h₁)) (hc₂ : Canonical (.finite .positive m₂ e₂ h₂))
    (he : e₁ < e₂) : (m₁ : ℚ) * 2 ^ e₁ < m₂ * 2 ^ e₂ := by
  obtain ⟨hlt₁, hmin₁, -⟩ := hc₁
  obtain ⟨-, -, htop₂⟩ := hc₂
  have htop : (2 : ℚ) ^ 52 ≤ m₂ := by exact_mod_cast htop₂.resolve_right (by omega)
  have hm₁ : (m₁ : ℚ) < 2 ^ 53 := by exact_mod_cast hlt₁
  calc (m₁ : ℚ) * 2 ^ e₁ < 2 ^ 53 * 2 ^ e₁ := mul_lt_mul_of_pos_right hm₁ (by positivity)
    _ = 2 ^ 52 * 2 ^ (e₁ + 1) := by rw [zpow_add₀ two_ne_zero]; ring
    _ ≤ 2 ^ 52 * 2 ^ e₂ :=
        mul_le_mul_of_nonneg_left (zpow_le_zpow_right₀ (by norm_num) (by omega)) (by positivity)
    _ ≤ m₂ * 2 ^ e₂ := mul_le_mul_of_nonneg_right htop (by positivity)

/-- Comparison of positive doubles compares their values. -/
theorem lt_iff_value_lt {a b : Float} {m₁ m₂ : ℕ} {e₁ e₂ : ℤ} {h₁ : 0 < m₁} {h₂ : 0 < m₂}
    (ha : a.toModel.unpack = .finite .positive m₁ e₁ h₁)
    (hb : b.toModel.unpack = .finite .positive m₂ e₂ h₂) :
    a < b ↔ (m₁ : ℚ) * 2 ^ e₁ < m₂ * 2 ^ e₂ := by
  have hc₁ := (canonical_toModel_unpack a).1
  have hc₂ := (canonical_toModel_unpack b).1
  rw [ha] at hc₁
  rw [hb] at hc₂
  rw [lt_iff_unpack, ha, hb]
  simp only [UnpackedFloat.lt, UnpackedFloat.compare]
  rcases lt_trichotomy e₁ e₂ with he | rfl | he
  · simp only [Int.compare_eq_lt.2 he, Ordering.lt_then]
    exact iff_of_true rfl (lt_of_exponent_lt hc₁ hc₂ he)
  · rw [show compare e₁ e₁ = .eq from Int.compare_eq_eq.2 rfl,
      mul_lt_mul_iff_of_pos_right (by positivity), Nat.cast_lt]
    simp only [Ordering.then]
    cases hm : compare m₁ m₂ with
    | lt => exact iff_of_true rfl (Nat.compare_eq_lt.1 hm)
    | eq => exact iff_of_false (by decide) (by rw [Nat.compare_eq_eq.1 hm]; exact lt_irrefl _)
    | gt => exact iff_of_false (by decide) (not_lt.2 (Nat.compare_eq_gt.1 hm).le)
  · simp only [Int.compare_eq_gt.2 he, Ordering.gt_then]
    exact iff_of_false (by decide) (not_lt.2 (lt_of_exponent_lt hc₂ hc₁ he).le)

theorem not_lt_of_zero {a b : Float} {m : ℕ} {e : ℤ} {h : 0 < m} {s : Sign}
    (ha : a.toModel.unpack = .finite .positive m e h) (hb : b.toModel.unpack = .zero s) :
    ¬ a < b := by
  rw [lt_iff_unpack, ha, hb]
  simp [UnpackedFloat.lt, UnpackedFloat.compare]

theorem lt_of_infinity {a b : Float} {m : ℕ} {e : ℤ} {h : 0 < m}
    (ha : a.toModel.unpack = .finite .positive m e h) (hb : b.toModel.unpack = .infinity .positive) :
    a < b := by
  rw [lt_iff_unpack, ha, hb]
  rfl

end PinWave.Double
