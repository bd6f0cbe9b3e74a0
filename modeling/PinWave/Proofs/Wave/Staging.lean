import PinWave.Proofs.Wave.Bits
import Mathlib.Data.List.Induction
/-!
# Staged defaults against direct writes

A wave is edited by two kinds of call: a direct write of one bit of one word (`Wave.setBit`), and
a staged default of one bit (`Wave.stage`), which changes no word until the next commit forces
that bit in every word. A call naming a bit past 63 is refused, and so is a write past the last
word; a refused call changes nothing (`Wave.Call.apply_eq_error_iff`).

While calls are made the wave keeps one fact (`Wave.Staged`): its words are those the direct
writes alone give, and bit `b` of the staged sets, or of the staged clears, is high exactly when
the last staging of `b` was high, or low. Each call keeps it (`Wave.Staged.step`), so every run
does; a commit then forces each staged bit to its last staged level and leaves every other bit as
the writes left it. So staging any number of defaults and committing once is the same as writing
each of them into every word after the direct writes.

## Main definitions
* `Wave.Call`: a call that edits a wave; `Wave.Call.fault?`: the refusal it meets.
* `Wave.runCalls`: calls made in order, a refused call changing nothing.
* `Wave.lastStaged`: the level a bit was last staged to.
* `Wave.StagedRun`: what a run of calls and one commit do.

## Main statements
* `Wave.stagedRun_of_unstaged`: on a wave with nothing staged, every run of calls and one commit
  do what `Wave.StagedRun` says.
-/

namespace PinWave.Wave

/-- A call that edits a wave: a direct write of one bit of one word, or a staged default. -/
inductive Call where
  | setBit (t bit : Nat) (value : Bool)
  | stage (bit : Nat) (value : Bool)
  deriving DecidableEq

namespace Call

/-- Whether the call is a direct write. -/
def isSetBit : Call → Bool
  | .setBit .. => true
  | .stage .. => false

/-- Makes the call on a wave. -/
def apply : Call → Wave → Except Fault Wave
  | .setBit t b v, w => w.setBit t b v
  | .stage b v, w => w.stage b v

/-- The refusal a call meets on a wave of `len` words: a bit past 63 first, then a write past
the last word. -/
def fault? (len : Nat) : Call → Option Fault
  | .setBit t b _ =>
    if 64 ≤ b then some (.bitOutOfRange b)
    else if len ≤ t then some (.timestepOutOfRange t len) else none
  | .stage b _ => if 64 ≤ b then some (.bitOutOfRange b) else none

end Call

/-- Makes a call; a refused call leaves the wave as it was. -/
def call (w : Wave) (c : Call) : Wave :=
  match c.apply w with
  | .ok w' => w'
  | .error _ => w

/-- Makes the calls in order; a refused call changes nothing. -/
def runCalls (w : Wave) (cs : List Call) : Wave := cs.foldl call w

/-- The level bit `b` was last staged to, if any call stages it. -/
def lastStaged (cs : List Call) (b : Nat) : Option Bool :=
  (cs.filterMap fun
    | .stage b' v => if b' = b then some v else none
    | .setBit .. => none).getLast?

/-- Word `x` with bit `b` set to `v`. -/
def setLevel (x : UInt64) (b : Fin 64) (v : Bool) : UInt64 :=
  if v then x ||| bitMask b else x &&& ~~~bitMask b

@[simp] theorem bitAt_setLevel (x : UInt64) (b c : Fin 64) (v : Bool) :
    bitAt (setLevel x c v) b = if b = c then v else bitAt x b := by
  by_cases h : b = c <;> cases v <;> simp [setLevel, h]

/-- A word whose every bit is low is zero. -/
theorem eq_zero_of_bitAt {x : UInt64} (h : ∀ b : Fin 64, bitAt x b = false) : x = 0 := by
  apply UInt64.toBitVec_inj.1
  apply BitVec.eq_of_getLsbD_eq
  intro j hj
  simpa [bitAt] using h ⟨j, hj⟩

/-! ## One call -/

/-- A write of a bit below 64 sets that bit of the word at `t`, or is refused past the last word. -/
theorem setBit_eq (w : Wave) (t : Nat) (b : Fin 64) (v : Bool) :
    w.setBit t b v = match w.vector[t]? with
      | some x => .ok { w with vector := w.vector.set t (setLevel x b v) }
      | none => .error (.timestepOutOfRange t w.length) := by
  have hb : bitWord b.val = .ok (bitMask b) := by simp [bitWord, bitMask, b.isLt]
  simp only [setBit, hb, bind, Except.bind]
  cases w.vector[t]? <;> cases v <;> rfl

theorem stage_eq (w : Wave) (b : Fin 64) (v : Bool) : w.stage b v = .ok (w.stageAt b v) := by
  simp [stage, b.isLt]

/-- A call is refused exactly as `fault?` says, and a refused call has no result to keep. -/
theorem Call.apply_eq_error_iff (c : Call) (w : Wave) (f : Fault) :
    c.apply w = .error f ↔ c.fault? w.length = some f := by
  cases c with
  | setBit t b v =>
    by_cases hb : 64 ≤ b
    · simp [apply, fault?, hb, setBit_bit_fault w t b v hb]
    · have hb' : b < 64 := by omega
      simp only [apply, fault?, hb, if_false]
      rw [show b = (⟨b, hb'⟩ : Fin 64).val from rfl, setBit_eq]
      by_cases ht : w.length ≤ t
      · rw [List.getElem?_eq_none (by simpa [length] using ht)]
        simp [ht]
      · rw [List.getElem?_eq_getElem (by simp only [length] at ht; omega)]
        simp [ht]
  | stage b v =>
    by_cases hb : 64 ≤ b
    · have hb' : ¬ b < 64 := by omega
      simp [apply, fault?, Wave.stage, hb, hb']
    · have hb' : b < 64 := by omega
      simp only [apply, fault?, hb, if_false]
      rw [show b = (⟨b, hb'⟩ : Fin 64).val from rfl, stage_eq]
      simp

/-- A write that passes sets bit `b` of word `t` to `v`, and every other bit stays. -/
theorem trace_of_setBit {w w' : Wave} {t b : Nat} {v : Bool} (h : w.setBit t b v = .ok w')
    (b' : Fin 64) : w'.trace b' = if b'.val = b then (w.trace b').set t v else w.trace b' := by
  have hb : b < 64 := by
    refine Nat.lt_of_not_le fun hb => ?_
    rw [setBit_bit_fault w t b v hb] at h
    cases h
  rw [show b = (⟨b, hb⟩ : Fin 64).val from rfl, setBit_eq] at h
  cases hx : w.vector[t]? with
  | none =>
    rw [hx] at h
    cases h
  | some x =>
    rw [hx] at h
    cases h
    obtain ⟨ht, rfl⟩ := List.getElem?_eq_some_iff.1 hx
    rw [trace_eq, trace_eq]
    simp only [List.map_set, bitAt_setLevel]
    by_cases hb' : b' = ⟨b, hb⟩
    · simp [hb']
    · have hne : b'.val ≠ b := fun h => hb' (Fin.ext h)
      rw [if_neg hb', if_neg hne]
      -- writing the word's own bit back is no change
      have hself := @List.set_getElem_self _ (w.vector.map (bitAt · b')) t (by simpa using ht)
      rwa [List.getElem_map] at hself

/-- The words a direct write leaves: bit `b` of the word at `t` set to `v`, when both exist. -/
def writeWords (vec : List UInt64) (t b : Nat) (v : Bool) : List UInt64 :=
  if h : b < 64 then
    match vec[t]? with
    | some x => vec.set t (setLevel x ⟨b, h⟩ v)
    | none => vec
  else vec

theorem length_writeWords (vec : List UInt64) (t b : Nat) (v : Bool) :
    (writeWords vec t b v).length = vec.length := by
  unfold writeWords
  split
  · split <;> simp
  · rfl

/-- A direct write changes the words only, and those through their own values. -/
theorem call_setBit (w : Wave) (t b : Nat) (v : Bool) :
    w.call (.setBit t b v) = { w with vector := writeWords w.vector t b v } := by
  simp only [call, Call.apply, writeWords]
  by_cases hb : b < 64
  · rw [dif_pos hb, show w.setBit t b v = _ from setBit_eq w t ⟨b, hb⟩ v]
    cases w.vector[t]? <;> rfl
  · rw [dif_neg hb, setBit_bit_fault w t b v (by omega)]

theorem call_stage_of_lt (w : Wave) {b : Nat} (hb : b < 64) (v : Bool) :
    w.call (.stage b v) = w.stageAt ⟨b, hb⟩ v := by
  simp [call, Call.apply, Wave.stage, hb]

theorem call_stage_of_le (w : Wave) {b : Nat} (hb : 64 ≤ b) (v : Bool) :
    w.call (.stage b v) = w := by
  have hb' : ¬ b < 64 := by omega
  simp [call, Call.apply, Wave.stage, hb']

@[simp] theorem bitAt_mask_stageAt (w : Wave) (b c : Fin 64) (v : Bool) :
    bitAt (w.stageAt c v).mask b = if b = c then v else bitAt w.mask b := by
  by_cases h : b = c <;> cases v <;> simp [stageAt, h]

@[simp] theorem bitAt_unmask_stageAt (w : Wave) (b c : Fin 64) (v : Bool) :
    bitAt (w.stageAt c v).unmask b = if b = c then !v else bitAt w.unmask b := by
  by_cases h : b = c <;> cases v <;> simp [stageAt, h]

/-! ## Many calls -/

theorem runCalls_append_singleton (w : Wave) (cs : List Call) (c : Call) :
    runCalls w (cs ++ [c]) = (runCalls w cs).call c := by
  simp [runCalls, List.foldl_append]

theorem lastStaged_append_singleton (cs : List Call) (c : Call) (b : Nat) :
    lastStaged (cs ++ [c]) b = match c with
      | .stage b' v => if b' = b then some v else lastStaged cs b
      | .setBit .. => lastStaged cs b := by
  cases c with
  | setBit t b' v => simp [lastStaged, List.filterMap_append]
  | stage b' v => by_cases h : b' = b <;> simp [lastStaged, List.filterMap_append, h]

/-- What a run of calls keeps on a wave that started with nothing staged: the words are those the
direct writes alone give, and bit `b` of the staged sets and of the staged clears records the last
staging of `b`. -/
structure Staged (w₀ : Wave) (cs : List Call) (w : Wave) : Prop where
  length : w.length = w₀.length
  vector : w.vector = (runCalls w₀ (cs.filter Call.isSetBit)).vector
  mask : ∀ b : Fin 64, bitAt w.mask b = (lastStaged cs b == some true)
  unmask : ∀ b : Fin 64, bitAt w.unmask b = (lastStaged cs b == some false)

theorem staged_nil {w : Wave} (hm : w.mask = 0) (hu : w.unmask = 0) : Staged w [] w :=
  ⟨rfl, rfl, fun b => by simp [hm, lastStaged], fun b => by simp [hu, lastStaged]⟩

/-- Each call keeps the run's record: a write changes the words as it changes those of the
direct writes, and a staging of a bit below 64 records its level for that bit alone. -/
theorem Staged.step {w₀ w : Wave} {cs : List Call} (hw : Staged w₀ cs w) (c : Call) :
    Staged w₀ (cs ++ [c]) (w.call c) := by
  cases c with
  | setBit t b v =>
    have hf : (cs ++ [Call.setBit t b v]).filter Call.isSetBit =
        cs.filter Call.isSetBit ++ [Call.setBit t b v] := by simp [Call.isSetBit]
    refine ⟨?_, ?_, fun b' => ?_, fun b' => ?_⟩
    · rw [call_setBit]
      exact (length_writeWords w.vector t b v).trans hw.length
    · rw [hf, runCalls_append_singleton, call_setBit, call_setBit, hw.vector]
    · rw [call_setBit, lastStaged_append_singleton]
      exact hw.mask b'
    · rw [call_setBit, lastStaged_append_singleton]
      exact hw.unmask b'
  | stage b v =>
    have hf : (cs ++ [Call.stage b v]).filter Call.isSetBit = cs.filter Call.isSetBit := by
      simp [Call.isSetBit]
    by_cases hb : b < 64
    · rw [call_stage_of_lt w hb]
      refine ⟨(congrArg List.length (vector_stageAt w _ v)).trans hw.length,
        by rw [vector_stageAt, hf, hw.vector],
        fun b' => ?_, fun b' => ?_⟩
      all_goals
        rw [lastStaged_append_singleton]
        by_cases hbb : b' = ⟨b, hb⟩
        · subst hbb
          cases v <;> simp
        · have hne : b ≠ b'.val := fun h => hbb (Fin.ext h.symm)
          simp [hbb, hne, hw.mask, hw.unmask]
    · -- a bit past 63 is refused, and no bit below 64 is it
      rw [call_stage_of_le w (by omega)]
      refine ⟨hw.length, by rw [hf, hw.vector], fun b' => ?_, fun b' => ?_⟩
      all_goals
        have hne : b ≠ b'.val := by omega
        simp [lastStaged_append_singleton, hne, hw.mask, hw.unmask]

/-- Every run keeps the record. -/
theorem staged_runCalls {w : Wave} (hm : w.mask = 0) (hu : w.unmask = 0) (cs : List Call) :
    Staged w cs (runCalls w cs) := by
  induction cs using List.reverseRecOn with
  | nil => exact staged_nil hm hu
  | append_singleton cs c ih =>
    rw [runCalls_append_singleton]
    exact ih.step c

/-- The record never stages a bit both ways. -/
theorem Staged.disjoint {w₀ w : Wave} {cs : List Call} (hw : Staged w₀ cs w) :
    w.mask &&& w.unmask = 0 :=
  eq_zero_of_bitAt fun b => by
    rw [bitAt_and, hw.mask, hw.unmask]
    cases lastStaged cs b with
    | none => rfl
    | some v => cases v <;> rfl

/-- Committing a recorded run forces each staged bit to its last staged level, and leaves every
other bit as the direct writes left it. -/
theorem Staged.trace_commit {w₀ w : Wave} {cs : List Call} (hw : Staged w₀ cs w) (b : Fin 64) :
    w.commit.trace b = match lastStaged cs b with
      | some v => List.replicate w₀.length v
      | none => (runCalls w₀ (cs.filter Call.isSetBit)).trace b := by
  have hlen : w.vector.length = w₀.length := hw.length
  rw [Wave.trace_commit, commitView, bitView]
  dsimp only
  rw [hw.mask, hw.unmask]
  cases lastStaged cs b with
  | none => simp [trace_eq, hw.vector]
  | some v =>
    rw [← hlen]
    cases v <;> simp [List.map_const']

/-! ## A run of calls and one commit -/

/-- What a run of calls `cs` on `w` and one commit at its end do, the `k`-th call meeting the wave
the calls before it leave. -/
structure StagedRun (w : Wave) (cs : List Call) : Prop where
  /-- The `k`-th call is refused exactly as its fault on a wave of `w`'s length says. -/
  refused : ∀ k (hk : k < cs.length) (f : Fault),
    cs[k].apply (runCalls w (cs.take k)) = .error f ↔ cs[k].fault? w.length = some f
  /-- A refused call changes nothing. -/
  unchanged : ∀ k (hk : k < cs.length), (cs[k].fault? w.length).isSome →
    runCalls w (cs.take (k + 1)) = runCalls w (cs.take k)
  /-- A direct write that passes sets bit `b` of word `t` to `v` and changes no other bit. -/
  write : ∀ k (hk : k < cs.length) t b v, cs[k] = .setBit t b v → cs[k].fault? w.length = none →
    ∀ b' : Fin 64, (runCalls w (cs.take (k + 1))).trace b' =
      if b'.val = b then ((runCalls w (cs.take k)).trace b').set t v
      else (runCalls w (cs.take k)).trace b'
  /-- Before the commit the words are those the direct writes alone give. -/
  words : ∀ k, (runCalls w (cs.take k)).vector =
    (runCalls w ((cs.take k).filter Call.isSetBit)).vector
  /-- No bit is ever staged both to be set and to be cleared. -/
  disjoint : ∀ k, (runCalls w (cs.take k)).mask &&& (runCalls w (cs.take k)).unmask = 0
  /-- The commit forces every staged bit to its last staged level in every word, and leaves every
  other bit as the direct writes left it. -/
  committed : ∀ b : Fin 64, (runCalls w cs).commit.trace b = match lastStaged cs b with
    | some v => List.replicate w.length v
    | none => (runCalls w (cs.filter Call.isSetBit)).trace b
  /-- The commit clears the stage. -/
  cleared : (runCalls w cs).commit.mask = 0 ∧ (runCalls w cs).commit.unmask = 0

theorem runCalls_take_succ (w : Wave) {cs : List Call} {k : Nat} (hk : k < cs.length) :
    runCalls w (cs.take (k + 1)) = (runCalls w (cs.take k)).call cs[k] := by
  rw [← List.take_append_getElem hk, runCalls_append_singleton]

/-- Staging defaults and committing once, on a wave with nothing staged: calls are refused as
their faults say and then change nothing, direct writes set one bit each, no bit is staged both
ways, and the commit forces each staged bit to its last staged level over the words the direct
writes left. -/
theorem stagedRun_of_unstaged (w : Wave) (hm : w.mask = 0) (hu : w.unmask = 0) (cs : List Call) :
    StagedRun w cs := by
  have hrun := staged_runCalls hm hu
  refine ⟨fun k hk f => ?_, fun k hk hf => ?_, fun k hk t b v hc hf b' => ?_,
    fun k => (hrun _).vector, fun k => (hrun _).disjoint, (hrun cs).trace_commit, ?_⟩
  · rw [Call.apply_eq_error_iff, (hrun _).length]
  · obtain ⟨f, hf⟩ := Option.isSome_iff_exists.1 hf
    rw [runCalls_take_succ w hk, call,
      (Call.apply_eq_error_iff _ _ f).2 (by rw [(hrun _).length]; exact hf)]
  · -- the write passes, so the next wave is its result
    have hok : ∃ w', cs[k].apply (runCalls w (cs.take k)) = .ok w' := by
      cases hr : cs[k].apply (runCalls w (cs.take k)) with
      | ok w' => exact ⟨w', rfl⟩
      | error f =>
        rw [Call.apply_eq_error_iff, (hrun _).length, hf] at hr
        cases hr
    obtain ⟨w', hw'⟩ := hok
    rw [runCalls_take_succ w hk, call, hw']
    rw [hc] at hw'
    exact trace_of_setBit hw' b'
  · exact ⟨mask_commit _, unmask_commit _⟩

theorem stagedRun_sample :
    ((make [2, 3, 0, 5] 1000.0 none).mask = 0 ∧ (make [2, 3, 0, 5] 1000.0 none).unmask = 0) ∧
    StagedRun (make [2, 3, 0, 5] 1000.0 none)
      [.setBit 1 0 false, .stage 3 true, .setBit 9 0 true, .stage 64 false, .stage 1 false,
        .stage 3 false, .setBit 0 1 true] :=
  ⟨⟨rfl, rfl⟩, stagedRun_of_unstaged _ rfl rfl _⟩

end PinWave.Wave
