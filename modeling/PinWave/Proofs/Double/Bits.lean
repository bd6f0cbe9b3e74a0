import Mathlib
import PinWave.Decimal.Shortest
/-!
# The bits of a double

A double is its 64-bit word: a sign bit, an 11-bit biased exponent and a 52-bit fraction. Lean's
logical model of `Float` unpacks the word into a sign, a significand and an exponent and packs
the result of each operation back; here the two directions are shown to undo each other on every
word a double can hold, so a double is the double of its own bits, and every double but NaN
equals itself. The split of a word into `Decimal.Kind` is then read off the same three fields:
a finite magnitude is a significand of at most 53 bits on the exponent range of doubles, and
the 63 bits below the sign are its biased exponent and fraction.

## Main statements
* `Double.ofBits_toBits`: a double is the double of its bits.
* `Double.beq_self`: a double that is not NaN equals itself.
* `Decimal.Kind.legal_of_ofBits`, `Decimal.Kind.bits_of_ofBits`: the finite magnitude of a word.
-/

open Float.Model Float.Model.UnpackedFloat

namespace PinWave.Double

/-! ## Packing undoes unpacking -/

theorem toBitVec_ofBitVec (b : BitVec 1) : (Sign.ofBitVec b).toBitVec = b := by
  revert b
  decide

theorem packComponents_fields (v : BitVec Format.binary64.numBits) :
    packComponents .binary64 (Sign.ofBitVec (unpackSign v)) (unpackExponent v)
      (unpackMantissa v) = v := by
  simp only [packComponents, toBitVec_ofBitVec, unpackSign, unpackExponent, unpackMantissa,
    BitVec.extractLsb]
  ext i hi
  grind

/-- The packed word of a word's own fields, named by what they equal. -/
theorem packComponents_of_fields {v : BitVec Format.binary64.numBits}
    {e : BitVec Format.binary64.exponentBits} {m : BitVec Format.binary64.mantissaBitsWithoutImplicit}
    (he : unpackExponent v = e) (hm : unpackMantissa v = m) :
    packComponents .binary64 (Sign.ofBitVec (unpackSign v)) e m = v := by
  rw [← he, ← hm]
  exact packComponents_fields v

theorem toNat_unpackMantissa (v : BitVec Format.binary64.numBits) :
    (unpackMantissa v).toNat = v.toNat % 2 ^ 52 := by
  simp [unpackMantissa, BitVec.extractLsb, BitVec.extractLsb']

theorem toNat_unpackExponent (v : BitVec Format.binary64.numBits) :
    (unpackExponent v).toNat = v.toNat / 2 ^ 52 % 2 ^ 11 := by
  simp [unpackExponent, BitVec.extractLsb, BitVec.extractLsb', Nat.shiftRight_eq_div_pow]

/-- A word whose exponent field is neither all ones nor zero is a normal number: the field lies
strictly between the two, and the significand is the fraction under the implicit bit. -/
theorem normal_fields {v : BitVec Format.binary64.numBits}
    (hexp : ¬unpackExponent v = -1#_)
    (hexp0 : ¬unpackExponent v = 0#_) :
    (unpackExponent v).toNat ≠ 0 ∧ (unpackExponent v).toNat < 2047 ∧
      (1#1 ++ unpackMantissa v).toNat = 2 ^ 52 + (unpackMantissa v).toNat := by
  have hE1 : (unpackExponent v).toNat ≠ 2047 :=
    fun h => hexp (BitVec.toNat_inj.1 (by simpa using h))
  have hElt : (unpackExponent v).toNat < 2048 := (unpackExponent v).isLt
  have hMlt : (unpackMantissa v).toNat < 2 ^ 52 := (unpackMantissa v).isLt
  refine ⟨fun h => hexp0 (BitVec.toNat_inj.1 (by simpa using h)), by omega, ?_⟩
  rw [BitVec.toNat_append, ← Nat.shiftLeft_add_eq_or_of_lt hMlt]
  simp [Nat.shiftLeft_eq]

/-- Unpacking a valid word and packing it again gives the word back: the one word that unpacks
to NaN is the canonical one, and every other word is rebuilt from its own fields. -/
theorem pack_unpack_of_valid {v : BitVec Format.binary64.numBits} (hv : Format.binary64.Valid v) :
    UnpackedFloat.pack .binary64 (UnpackedFloat.unpack .binary64 v) = v := by
  rw [UnpackedFloat.unpack]
  split
  · rename_i hexp
    split
    · exact packComponents_of_fields hexp ‹_›
    · rename_i hmant
      exact (hv.eq_packedNaN hexp hmant).symm
  · rename_i hexp
    split
    · rename_i hexp0
      split
      · exact packComponents_of_fields hexp0 ‹_›
      · rename_i hmant
        -- a subnormal: the biased exponent is one and the significand has fewer than 53 bits
        have hE : (unpackExponent v).toNat = 0 := by rw [hexp0]; rfl
        have hne : (unpackMantissa v).toNat ≠ 0 :=
          fun h => hmant (BitVec.toNat_inj.1 (by simpa using h))
        have hlog : (unpackMantissa v).toNat.log2 < 52 :=
          (Nat.log2_lt hne).2 (unpackMantissa v).isLt
        simp only [UnpackedFloat.pack]
        rw [if_neg (by simp [hE]; omega), if_neg (by simp [Format.mantissaBits]; omega)]
        exact packComponents_of_fields hexp0 (by simp)
    · rename_i hexp0
      -- a normal number: the implicit bit makes the significand 53 bits long
      obtain ⟨hE0, hE1, happ⟩ := normal_fields hexp hexp0
      have hMlt : (unpackMantissa v).toNat < 2 ^ 52 := (unpackMantissa v).isLt
      have hlog : (1#1 ++ unpackMantissa v).toNat.log2 = 52 := by
        rw [happ, Nat.log2_eq_iff (by omega)]
        omega
      simp only [UnpackedFloat.pack]
      rw [if_neg (by simp; omega), if_pos (by simp [Format.mantissaBits, hlog])]
      refine packComponents_of_fields ?_ ?_
      · apply BitVec.toNat_inj.1
        simp
        omega
      · apply BitVec.toNat_inj.1
        simp [happ]
        omega

/-! ## Doubles and their bits -/

/-- A double is the double of its own bits. -/
theorem ofBits_toBits (x : Float) : Float.ofBits x.toBits = x := by
  obtain ⟨⟨bits, hv⟩⟩ := x
  have h := pack_unpack_of_valid hv
  simp only [Float.ofBits, Float.toBits, Float.Model.ofBits, Float.Model.pack]
  congr 1
  cases bits
  simp only [Float.Model.mk.injEq]
  apply UInt64.toBitVec_inj.1
  simpa using h

/-- Every double that is not NaN equals itself. -/
theorem beq_self {x : Float} (h : x.isNaN = false) : (x == x) = true := by
  obtain ⟨⟨bits, hv⟩⟩ := x
  simp only [Float.isNaN, Float.Model.isNaN, UnpackedFloat.isNaN] at h
  show UnpackedFloat.beq _ _ = true
  simp only [UnpackedFloat.beq]
  generalize Float.Model.unpack ⟨bits, hv⟩ = u at h ⊢
  cases u with
  | notANumber => simp at h
  | infinity s => cases s <;> rfl
  | zero s => rfl
  | finite s m e hm => cases s <;> simp [UnpackedFloat.compare]

/-- A double whose exponent field is all ones and whose fraction is not zero is NaN. -/
theorem isNaN_of_fields {x : Float} (he : x.toBits.toNat / 2 ^ 52 % 2 ^ 11 = 2047)
    (hm : x.toBits.toNat % 2 ^ 52 ≠ 0) : x.isNaN = true := by
  obtain ⟨⟨bits, hv⟩⟩ := x
  have he' := toNat_unpackExponent bits.toBitVec
  have hm' := toNat_unpackMantissa bits.toBitVec
  simp only [Float.toBits, UInt64.toNat] at he hm
  simp only [Float.isNaN, Float.Model.isNaN, Float.Model.unpack, UnpackedFloat.unpack]
  rw [if_pos (BitVec.toNat_inj.1 (by simp; omega)), if_neg (fun h => hm (by
    rw [← hm', h]; rfl))]
  rfl

end PinWave.Double

namespace PinWave.Decimal

/-! ## The finite magnitude of a word -/

/-- The finite magnitudes of doubles: a significand below `2^53` on the exponent range of doubles,
a full 53 bits above the lowest binade, and a closer lower neighbour exactly at the bottom of a
binade above the lowest. -/
structure Binary.Legal (b : Binary) : Prop where
  man_lt : b.man < 2 ^ 53
  exp_ge : -1074 ≤ b.exp
  exp_le : b.exp ≤ 971
  normal : -1074 < b.exp → 2 ^ 52 ≤ b.man
  lowerClose_iff : b.lowerClose = true ↔ b.man = 2 ^ 52 ∧ -1074 < b.exp

/-- The 63 bits below the sign of a finite magnitude: its biased exponent and its fraction. -/
def Binary.bits (b : Binary) : Nat := (b.exp + 1074).toNat * 2 ^ 52 + b.man

/-- What a finite word's fields say of its magnitude. -/
theorem Kind.ofBits_eq_finite {w : UInt64} {b : Binary} (h : Kind.ofBits w = .finite b) :
    w.toNat / 2 ^ 52 % 2 ^ 11 ≠ 2047 ∧ b.neg = decide (2 ^ 63 ≤ w.toNat) ∧
      (w.toNat / 2 ^ 52 % 2 ^ 11 = 0 ∧ b.man = w.toNat % 2 ^ 52 ∧ b.exp = -1074 ∧
          b.lowerClose = false ∨
        w.toNat / 2 ^ 52 % 2 ^ 11 ≠ 0 ∧ b.man = w.toNat % 2 ^ 52 + 2 ^ 52 ∧
          b.exp = ((w.toNat / 2 ^ 52 % 2 ^ 11 : Nat) : Int) - 1075 ∧
          b.lowerClose = (w.toNat % 2 ^ 52 == 0 && decide (w.toNat / 2 ^ 52 % 2 ^ 11 > 1))) := by
  simp only [Kind.ofBits] at h
  split at h
  · split at h <;> cases h
  · rename_i hf
    split at h
    · cases h
      exact ⟨hf, rfl, .inl ⟨‹_›, rfl, rfl, rfl⟩⟩
    · cases h
      exact ⟨hf, rfl, .inr ⟨‹_›, rfl, rfl, rfl⟩⟩

theorem Kind.legal_of_ofBits {w : UInt64} {b : Binary} (h : Kind.ofBits w = .finite b) :
    b.Legal := by
  have hw : w.toNat < 2 ^ 64 := w.toNat_lt
  obtain ⟨hf, -, ⟨h0, hm, he, hl⟩ | ⟨h0, hm, he, hl⟩⟩ := Kind.ofBits_eq_finite h
  · refine ⟨by omega, by omega, by omega, fun h => by omega, ?_⟩
    simp [hl]
    omega
  · refine ⟨by omega, by omega, by omega, fun _ => by omega, ?_⟩
    rw [hl]
    simp only [Bool.and_eq_true, beq_iff_eq, decide_eq_true_eq]
    omega

theorem Kind.bits_of_ofBits {w : UInt64} {b : Binary} (h : Kind.ofBits w = .finite b) :
    w.toNat % 2 ^ 63 = b.bits := by
  have hw : w.toNat < 2 ^ 64 := w.toNat_lt
  obtain ⟨hf, -, ⟨h0, hm, he, -⟩ | ⟨h0, hm, he, -⟩⟩ := Kind.ofBits_eq_finite h <;>
    simp only [Binary.bits, hm, he] <;> omega

theorem Kind.neg_of_ofBits {w : UInt64} {b : Binary} (h : Kind.ofBits w = .finite b) :
    b.neg = decide (2 ^ 63 ≤ w.toNat) :=
  (Kind.ofBits_eq_finite h).2.1

/-- The two infinities are the words of an all-ones exponent and a zero fraction. -/
theorem Kind.ofBits_eq_infinite {w : UInt64} {neg : Bool} (h : Kind.ofBits w = .infinite neg) :
    w.toNat = (if neg then 2 ^ 63 else 0) + 2047 * 2 ^ 52 := by
  have hw : w.toNat < 2 ^ 64 := w.toNat_lt
  simp only [Kind.ofBits] at h
  split at h
  · split at h
    · cases h
      split <;> simp_all <;> omega
    · cases h
  · split at h <;> cases h

theorem Kind.isNaN_of_ofFloat {x : Float} (h : Kind.ofFloat x = .nan) : x.isNaN = true := by
  simp only [Kind.ofFloat, Kind.ofBits] at h
  split at h
  · split at h
    · cases h
    · exact Double.isNaN_of_fields ‹_› ‹_›
  · split at h <;> cases h

end PinWave.Decimal
