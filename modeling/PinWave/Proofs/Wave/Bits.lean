import PinWave.Convert.Pack
/-!
# The bits of a wave

A wave is seen one bit at a time through its view (`Wave.bitView`): the bit of each word, and
whether the stage sets or clears the bit. Staging and oring levels into a bit change the view of
that bit only; committing forces the staged level into every word (`Wave.trace_commit`), a
staged set winning over a staged clear. So the level a bit reads after a commit is a function of
its view, and edits of other bits never change it.

## Main definitions
* `Wave.bitAt`: bit `b` of a word.
* `Wave.bitView`: what a wave holds at one bit.
* `Wave.commitView`: the levels a view reads once committed.
-/

namespace PinWave.Wave

/-- Bit `b` of a word. -/
def bitAt (v : UInt64) (b : Fin 64) : Bool := v.toBitVec.getLsbD b

@[simp] theorem bitAt_or (v v' : UInt64) (b : Fin 64) :
    bitAt (v ||| v') b = (bitAt v b || bitAt v' b) := by
  simp [bitAt]

@[simp] theorem bitAt_and (v v' : UInt64) (b : Fin 64) :
    bitAt (v &&& v') b = (bitAt v b && bitAt v' b) := by
  simp [bitAt]

@[simp] theorem bitAt_not (v : UInt64) (b : Fin 64) : bitAt (~~~v) b = !bitAt v b := by
  simp [bitAt]

@[simp] theorem bitAt_zero (b : Fin 64) : bitAt 0 b = false := by
  simp [bitAt]

@[simp] theorem bitAt_bitMask (c b : Fin 64) : bitAt (bitMask c) b = decide (b = c) := by
  -- the shift amount is `c` itself, so bit `b` of the shifted one is set exactly at `c`
  have hc : ((UInt64.ofNat c.val).toBitVec % 64).toNat = c.val := by
    simp [Nat.mod_eq_of_lt c.isLt]
  simp only [bitAt, bitMask, UInt64.toBitVec_shiftLeft, UInt64.toBitVec_ofNat]
  rw [BitVec.shiftLeft_eq', BitVec.getLsbD_shiftLeft, BitVec.getLsbD_one, hc, Bool.eq_iff_iff]
  simp only [Bool.and_eq_true, decide_eq_true_eq, Bool.not_eq_true', decide_eq_false_iff_not,
    Fin.ext_iff]
  omega

/-- The test a trace makes of a word reads its bit. -/
theorem shiftRight_and_one (v : UInt64) (b : Fin 64) :
    ((v >>> UInt64.ofNat b) &&& 1 == 1) = bitAt v b := by
  rw [bitAt, BitVec.getLsbD, Nat.testBit_eq_decide_div_mod_eq, UInt64.toNat_toBitVec]
  rw [Bool.eq_iff_iff, beq_iff_eq, decide_eq_true_iff, ← UInt64.toNat_inj, UInt64.toNat_and,
    UInt64.toNat_shiftRight, UInt64.toNat_one, Nat.and_one_is_mod, Nat.shiftRight_eq_div_pow]
  simp [Nat.mod_eq_of_lt b.isLt]

theorem trace_eq (w : Wave) (b : Fin 64) : w.trace b = w.vector.map (bitAt · b) := by
  simp [trace, shiftRight_and_one]

/-! ## The view of a bit -/

/-- What a wave holds at bit `b`: the bit of each word, whether the stage sets the bit, and
whether it clears it. -/
def bitView (w : Wave) (b : Fin 64) : List Bool × Bool × Bool :=
  (w.vector.map (bitAt · b), bitAt w.mask b, bitAt w.unmask b)

/-- The levels a view reads once committed: a staged set wins, then a staged clear, then the
bit of the word. -/
def commitView (v : List Bool × Bool × Bool) : List Bool :=
  v.1.map fun x => x && !v.2.2 || v.2.1

/-- A commit forces the staged levels: each bit then reads as its view commits. -/
theorem trace_commit (w : Wave) (b : Fin 64) : w.commit.trace b = commitView (w.bitView b) := by
  rw [trace_eq, commit]
  split
  · rename_i h
    simp only [Bool.and_eq_true, beq_iff_eq] at h
    simp [commitView, bitView, h.1, h.2]
  · simp [commitView, bitView]

@[simp] theorem mask_commit (w : Wave) : w.commit.mask = 0 := by
  unfold commit
  split
  · rename_i h
    simp only [Bool.and_eq_true, beq_iff_eq] at h
    exact h.1
  · rfl

@[simp] theorem unmask_commit (w : Wave) : w.commit.unmask = 0 := by
  unfold commit
  split
  · rename_i h
    simp only [Bool.and_eq_true, beq_iff_eq] at h
    exact h.2
  · rfl

@[simp] theorem hardware_commit (w : Wave) : w.commit.hardware = w.hardware := by
  unfold commit
  split <;> rfl

@[simp] theorem strobe_commit (w : Wave) : w.commit.strobe = w.strobe := by
  unfold commit
  split <;> rfl

@[simp] theorem metadata_commit (w : Wave) : w.commit.metadata = w.metadata := by
  unfold commit
  split <;> rfl

/-! ## Staging a bit -/

@[simp] theorem vector_stageAt (w : Wave) (c : Fin 64) (v : Bool) :
    (w.stageAt c v).vector = w.vector := by
  cases v <;> rfl

@[simp] theorem hardware_stageAt (w : Wave) (c : Fin 64) (v : Bool) :
    (w.stageAt c v).hardware = w.hardware := by
  cases v <;> rfl

@[simp] theorem strobe_stageAt (w : Wave) (c : Fin 64) (v : Bool) :
    (w.stageAt c v).strobe = w.strobe := by
  cases v <;> rfl

@[simp] theorem metadata_stageAt (w : Wave) (c : Fin 64) (v : Bool) :
    (w.stageAt c v).metadata = w.metadata := by
  cases v <;> rfl

/-- Staging a bit sets it or clears it at the next commit, whatever was staged before. -/
theorem bitView_stageAt_self (w : Wave) (c : Fin 64) (v : Bool) :
    (w.stageAt c v).bitView c = ((w.bitView c).1, v, !v) := by
  cases v <;> simp [stageAt, bitView]

theorem bitView_stageAt_of_ne (w : Wave) {b c : Fin 64} (h : b ≠ c) (v : Bool) :
    (w.stageAt c v).bitView b = w.bitView b := by
  cases v <;> simp [stageAt, bitView, h]

/-! ## Oring levels into a bit -/

theorem length_orLevels (bit : UInt64) (vs : List UInt64) (ls : List Bool) :
    (orLevels bit vs ls).length = vs.length := by
  induction vs generalizing ls with
  | nil => cases ls <;> rfl
  | cons v vs ih =>
    cases ls with
    | nil => rfl
    | cons l ls => simp [orLevels, ih]

/-- Oring levels into bit `c` leaves every other bit. -/
theorem map_bitAt_orLevels_of_ne {b c : Fin 64} (h : b ≠ c) (vs : List UInt64) (ls : List Bool) :
    (orLevels (bitMask c) vs ls).map (bitAt · b) = vs.map (bitAt · b) := by
  induction vs generalizing ls with
  | nil => cases ls <;> rfl
  | cons v vs ih =>
    cases ls with
    | nil => rfl
    | cons l ls => cases l <;> simp [orLevels, ih, h]

/-- Oring as many levels as words into a bit that is low in every word gives the levels. -/
theorem map_bitAt_orLevels_self {c : Fin 64} {vs : List UInt64} {ls : List Bool}
    (hv : ∀ v ∈ vs, bitAt v c = false) (hl : ls.length = vs.length) :
    (orLevels (bitMask c) vs ls).map (bitAt · c) = ls := by
  induction vs generalizing ls with
  | nil => cases ls with
    | nil => rfl
    | cons => simp at hl
  | cons v vs ih =>
    cases ls with
    | nil => simp at hl
    | cons l ls =>
      have hv₀ := hv v List.mem_cons_self
      cases l <;> simp [orLevels, hv₀, ih (fun v' h' => hv v' (List.mem_cons_of_mem _ h'))
        (by simpa using hl)]

end PinWave.Wave
