import PinWave.Proofs.Wave.Staging
import PinWave.Proofs.Analysis.Compare
/-!
# Forcing a signal

Forcing a signal stages its bit at the level and commits once. On a wave with nothing staged the
stage then holds that bit alone, so the commit writes it into every word and keeps every other
bit (`Wave.forced_stageAt_commit`): the signal reads the level at every step, and a signal on
another bit reads as before. Forcing is refused for a name the table lacks and for a signal of
another group than the wave's; both checks come before the stage, so a refused call gives no
wave to replace the old one.

## Main definitions
* `Wave.Forced`: what forcing one bit of a wave leaves.

## Main statements
* `forceSignal_spec`: what forcing a signal does to a wave with nothing staged.
-/

namespace PinWave

namespace Wave

/-- What forcing bit `b` of `w` to `v` leaves: every word with that bit at `v` and its other bits
kept, the strobe, group and metadata of `w`, and nothing staged. -/
structure Forced (w : Wave) (b : Fin 64) (v : Bool) (w' : Wave) : Prop where
  vector : w'.vector = w.vector.map (setLevel · b v)
  strobe : w'.strobe = w.strobe
  hardware : w'.hardware = w.hardware
  metadata : w'.metadata = w.metadata
  mask : w'.mask = 0
  unmask : w'.unmask = 0

namespace Forced

variable {w w' : Wave} {b : Fin 64} {v : Bool}

theorem length (h : Forced w b v w') : w'.length = w.length := by
  simp [Wave.length, h.vector]

/-- The forced bit reads the level at every step. -/
theorem trace_self (h : Forced w b v w') : w'.trace b = List.replicate w.length v := by
  rw [trace_eq, h.vector, List.map_map]
  simp [Function.comp_def, Wave.length, List.map_const']

/-- Every other bit reads as before. -/
theorem trace_of_ne (h : Forced w b v w') {b' : Fin 64} (hb : b' ≠ b) :
    w'.trace b' = w.trace b' := by
  rw [trace_eq, trace_eq, h.vector, List.map_map]
  exact List.map_congr_left fun x _ => by simp [hb]

end Forced

theorem bitMask_ne_zero (b : Fin 64) : bitMask b ≠ 0 := by
  intro h
  have hb := bitAt_bitMask b b
  rw [h, bitAt_zero] at hb
  simp at hb

/-- A commit with something staged forces the staged bits into every word. -/
theorem vector_commit_of_staged {w : Wave} (h : w.mask ≠ 0 ∨ w.unmask ≠ 0) :
    w.commit.vector = w.vector.map fun x => (x &&& ~~~w.unmask) ||| w.mask := by
  have hc : (w.mask == 0 && w.unmask == 0) = false := by
    rcases h with h | h <;> simp [h]
  simp [commit, hc]

/-- On a wave with nothing staged, staging one bit and committing forces that bit alone. -/
theorem forced_stageAt_commit {w : Wave} (hm : w.mask = 0) (hu : w.unmask = 0) (b : Fin 64)
    (v : Bool) : Forced w b v (w.stageAt b v).commit := by
  have hne := bitMask_ne_zero b
  refine ⟨?_, by simp, by simp, by simp, mask_commit _, unmask_commit _⟩
  -- the stage sets or clears bit `b` alone, so the commit does not take its shortcut
  cases v with
  | true =>
    rw [vector_commit_of_staged (.inl (by simp [stageAt, hm, hne]))]
    simp [stageAt, hm, hu, setLevel]
  | false =>
    rw [vector_commit_of_staged (.inr (by simp [stageAt, hu, hne]))]
    simp [stageAt, hm, hu, setLevel]

end Wave

section Force

variable {t : PinTable} {w : Wave} {n : String} {v : Bool} {s : Signal}

theorem forceSignal_of_find?_none (h : t.find? n = none) :
    forceSignal t w n v = .error (.unknownSignal n) := by
  simp [forceSignal, PinTable.require_of_find?_none h, bind, Except.bind]

theorem forceSignal_of_mismatch (h : t.find? n = some s) {hw : HwPath}
    (hw₁ : w.hardware = some hw) (hw₂ : hw ≠ s.hardware) :
    forceSignal t w n v = .error (.hardwareMismatch s.name hw s.hardware) := by
  simp [forceSignal, PinTable.require_of_find? h, hw₁, hw₂, bind, Except.bind, throw, throwThe,
    MonadExceptOf.throw]

theorem forceSignal_of_match (h : t.find? n = some s)
    (hw : ∀ hw, w.hardware = some hw → hw = s.hardware) :
    forceSignal t w n v = .ok (w.stageAt s.bit v).commit := by
  cases hw' : w.hardware with
  | none =>
    simp [forceSignal, PinTable.require_of_find? h, hw', bind, Except.bind, pure, Except.pure]
  | some hw₀ =>
    simp [forceSignal, PinTable.require_of_find? h, hw', hw hw₀ hw', bind, Except.bind, pure,
      Except.pure]

end Force

/-- Forcing a signal on a wave with nothing staged: a name the table lacks is refused, and so is a
signal of another group than the wave's; otherwise the wave comes back forced at the signal's bit,
so the signal reads the level at every step and every signal on another bit reads as before. -/
theorem forceSignal_spec (t : PinTable) (w : Wave) (hm : w.mask = 0) (hu : w.unmask = 0)
    (n : String) (v : Bool) :
    (t.find? n = none → forceSignal t w n v = .error (.unknownSignal n)) ∧
    ∀ s, t.find? n = some s →
      (∀ hw, w.hardware = some hw → hw ≠ s.hardware →
        forceSignal t w n v = .error (.hardwareMismatch s.name hw s.hardware)) ∧
      ((∀ hw, w.hardware = some hw → hw = s.hardware) →
        ∃ w', forceSignal t w n v = .ok w' ∧ Wave.Forced w s.bit v w' ∧
          bitstream t w' n = .ok (List.replicate w.length v) ∧
          ∀ m s', t.find? m = some s' → s'.bit ≠ s.bit → bitstream t w' m = bitstream t w m) := by
  refine ⟨forceSignal_of_find?_none, fun s hs =>
    ⟨fun hw hw₁ hw₂ => forceSignal_of_mismatch hs hw₁ hw₂, fun hw => ?_⟩⟩
  have hf := Wave.forced_stageAt_commit hm hu s.bit v
  refine ⟨_, forceSignal_of_match hs hw, hf, ?_, fun m s' hs' hb => ?_⟩
  · rw [bitstream_of_find? hs, hf.trace_self]
  · rw [bitstream_of_find? hs', bitstream_of_find? hs', hf.trace_of_ne hb]

/-- Forcing `C` high in a wave of the group `A`..`D`, with nothing staged. -/
theorem forceSignal_spec_sample :
    let hw : HwPath := ⟨["PXI1Slot5", "NI6583", "se_io"]⟩
    let t : PinTable := ⟨[⟨"A", .input, 0, false, hw⟩, ⟨"B", .input, 1, false, hw⟩,
      ⟨"C", .input, 2, false, hw⟩, ⟨"D", .output, 3, true, hw⟩], [(hw, ["A", "B", "C", "D"])], []⟩
    let w : Wave := ⟨[2, 3, 0, 5, 4, 5, 6, 7], 1000.0, some hw, 0, 0, ⟨[]⟩⟩
    w.mask = 0 ∧ w.unmask = 0 ∧
    (t.find? "C" = none → forceSignal t w "C" true = .error (.unknownSignal "C")) ∧
    ∀ s, t.find? "C" = some s →
      (∀ hw, w.hardware = some hw → hw ≠ s.hardware →
        forceSignal t w "C" true = .error (.hardwareMismatch s.name hw s.hardware)) ∧
      ((∀ hw, w.hardware = some hw → hw = s.hardware) →
        ∃ w', forceSignal t w "C" true = .ok w' ∧ Wave.Forced w s.bit true w' ∧
          bitstream t w' "C" = .ok (List.replicate w.length true) ∧
          ∀ m s', t.find? m = some s' → s'.bit ≠ s.bit → bitstream t w' m = bitstream t w m) :=
  ⟨rfl, rfl, forceSignal_spec _ _ rfl rfl "C" true⟩

end PinWave
