import PinWave.Proofs.Convert.Resample
import PinWave.Proofs.Wave.Staging
/-!
# The checks of a resampling

Resampling a dump makes four checks, in this order, and fails only on them: the strobe period
must be a finite number above zero; so must the tick length of the dump; no multiplexed pin may
have two imported members; and the step count, computed as a double, may not pass `2^32`. Once
they pass, resampling succeeds, with one wave per hardware group, each as long as the step count
says, which is none at all when the count is NaN (`resample_fails_on_checks`).

The sampling itself cannot fail: read as the edits of a wave it makes, a direct write of the
signal's bit at every step whose level is high, or the default staged when the dump lacks the
signal, every write names a word of the wave, since the ticks are as many as the words, and every
bit is below 64, since a signal's bit is (`foldlM_resampleSignalByCalls`).

## Main definitions
* `ImportOptions.muxedInScope`: the members of the multiplexed pins that refuse a resampling.
* `ImportOptions.stepCount`: the step count of a resampling, as a double.
* `resampleSignalByCalls`: one signal resampled through the checked edits of a wave.

## Main statements
* `resample_fails_on_checks`: a resampling fails exactly on its four checks, in order.
-/

namespace PinWave

open Wave

/-- The members, imported or not, of every multiplexed pin with two or more imported members:
pins in table order, members in pin order. -/
def ImportOptions.muxedInScope (o : ImportOptions) (t : PinTable) : List String :=
  (t.muxGroups.filter fun m =>
    2 ≤ (m.signals.filter fun n => t.signals.any fun s => s.name == n && o.imports s).length).flatMap
      (·.signals)

/-- The step count of a resampling as a double: the span of the dump in ticks over the ratio of
the strobe period to the tick length, rounded down. -/
def ImportOptions.stepCount (o : ImportOptions) (tr : Dump.Trace) : Float :=
  Double.floor ((UInt64.ofNat (tr.finish - tr.start)).toFloat / (o.strobe / o.timebase.getD tr.timebase))

theorem importedMux_eq_muxedInScope (t : PinTable) (o : ImportOptions) :
    t.importedMux ((t.signals.filter o.imports).map (·.name)) = o.muxedInScope t := by
  unfold PinTable.importedMux ImportOptions.muxedInScope
  -- a name is imported exactly when an imported signal has it
  have hmem : ((t.signals.filter o.imports).map (·.name)).contains =
      fun n => t.signals.any fun s => s.name == n && o.imports s := by
    funext n
    rw [Bool.eq_iff_iff]
    simp only [List.contains_iff_mem, List.mem_map, List.mem_filter, List.any_eq_true,
      Bool.and_eq_true, beq_iff_eq]
    exact ⟨fun ⟨s, ⟨hs, hi⟩, hn⟩ => ⟨s, hs, hn, hi⟩, fun ⟨s, hs, hn, hi⟩ => ⟨s, ⟨hs, hi⟩, hn⟩⟩
  rw [hmem]
  rfl

/-- A double that is NaN converts to no steps. -/
theorem toNat_toUInt64_of_isNaN {x : Float} (h : x.isNaN = true) : x.toUInt64.toNat = 0 := by
  apply Double.toNat_toUInt64_of_toInt
  cases hu : x.toModel.unpack with
  | notANumber => rfl
  | _ => simp [Float.isNaN, Float.Model.isNaN, hu, Float.Model.UnpackedFloat.isNaN] at h

/-! ## The sampling loop -/

/-- One signal resampled through the checked edits of a wave, as the sampling loop makes them:
its bit written high at every step whose level is high, or its default staged when the dump lacks
it. -/
def resampleSignalByCalls (tr : Dump.Trace) (bench : Option String) (ticks : List Nat) (w : Wave)
    (s : Signal) : Except Fault Wave :=
  match tr.history? (scopedName bench s.name) with
  | some h => (h.cursorLevels ticks).zipIdx.foldlM
      (fun w (lt : Bool × Nat) => if lt.1 then w.setBit lt.2 s.bit true else pure w) w
  | none => w.stage s.bit s.default

/-- Writing high levels into bit `b`, word `k` on from level one on, makes exactly the writes the
levels ask for, and each names a word while the levels are no more than the words left. -/
theorem foldlM_setBit_levels (b : Fin 64) :
    ∀ (ls : List Bool) (k : Nat) (w : Wave) (pre rest : List UInt64), w.vector = pre ++ rest →
      pre.length = k → ls.length ≤ rest.length →
      (ls.zipIdx k).foldlM (fun w (lt : Bool × Nat) => if lt.1 then w.setBit lt.2 b true else pure w)
        w = .ok { w with vector := pre ++ orLevels (bitMask b) rest ls }
  | [], _, w, pre, rest, hw, _, _ => by
    rw [show orLevels (bitMask b) rest [] = rest by cases rest <;> rfl, ← hw]
    rfl
  | l :: ls, k, w, pre, rest, hw, hk, hlen => by
    obtain ⟨x, rest, rfl⟩ : ∃ x rest', rest = x :: rest' := by
      cases rest with
      | nil => simp at hlen
      | cons x rest' => exact ⟨x, rest', rfl⟩
    have hlen' : ls.length ≤ rest.length := by simpa using hlen
    rw [List.zipIdx_cons, List.foldlM_cons]
    cases l
    · -- a low level writes nothing
      have ih := foldlM_setBit_levels b ls (k + 1) w (pre ++ [x]) rest (by simp [hw])
        (by simp [hk]) hlen'
      refine ih.trans ?_
      simp [orLevels]
    · -- a high level writes bit `b` of word `k`, which exists
      have hset : w.setBit k b true =
          .ok { w with vector := (pre ++ [x ||| bitMask b]) ++ rest } := by
        rw [setBit_eq, hw, List.getElem?_append_right (by omega), hk, Nat.sub_self]
        simp [setLevel, List.set_append_right _ _ (show pre.length ≤ k by omega), hk]
      have ih := foldlM_setBit_levels b ls (k + 1)
        { w with vector := (pre ++ [x ||| bitMask b]) ++ rest } (pre ++ [x ||| bitMask b]) rest rfl
        (by simp [hk]) hlen'
      simp only [if_true]
      rw [hset]
      refine ih.trans ?_
      simp [orLevels]

theorem length_resampleSignal (tr : Dump.Trace) (bench : Option String) (ticks : List Nat)
    (w : Wave) (s : Signal) : (resampleSignal tr bench ticks w s).length = w.length := by
  unfold resampleSignal
  split
  · simp [length, length_orLevels]
  · simp [length]

theorem length_foldl_resampleSignal (tr : Dump.Trace) (bench : Option String) (ticks : List Nat) :
    ∀ (sigs : List Signal) (w : Wave), (sigs.foldl (resampleSignal tr bench ticks) w).length = w.length
  | [], _ => rfl
  | s :: sigs, w => by
    rw [List.foldl_cons, length_foldl_resampleSignal tr bench ticks sigs, length_resampleSignal]

/-- Every checked edit of the sampling of one signal passes, when the ticks are no more than the
words, and together they give the signal's resampled wave. -/
theorem resampleSignalByCalls_eq {tr : Dump.Trace} {bench : Option String} {ticks : List Nat}
    {w : Wave} (hlen : ticks.length ≤ w.length) (s : Signal) :
    resampleSignalByCalls tr bench ticks w s = .ok (resampleSignal tr bench ticks w s) := by
  unfold resampleSignalByCalls resampleSignal
  cases tr.history? (scopedName bench s.name) with
  | some h =>
    exact foldlM_setBit_levels s.bit _ 0 w [] w.vector rfl rfl
      (by rw [History.length_cursorLevels]; exact hlen)
  | none => exact stage_eq w s.bit s.default

/-- The sampling loop of a group passes every check of its edits, and gives the wave before the
commit, when the ticks are no more than the words. -/
theorem foldlM_resampleSignalByCalls {tr : Dump.Trace} {bench : Option String} {ticks : List Nat} :
    ∀ (sigs : List Signal) (w : Wave), ticks.length ≤ w.length →
      sigs.foldlM (resampleSignalByCalls tr bench ticks) w =
        .ok (sigs.foldl (resampleSignal tr bench ticks) w)
  | [], _, _ => rfl
  | s :: sigs, w, hlen => by
    rw [List.foldlM_cons, resampleSignalByCalls_eq hlen s]
    exact foldlM_resampleSignalByCalls sigs _ (by rw [length_resampleSignal]; exact hlen)

/-! ## The four checks -/

section Checks

variable {t : PinTable} {tr : Dump.Trace} {o : ImportOptions}

theorem resample_of_strobe (h : strobeOk o.strobe = false) :
    resample t tr o = .error (.invalidStrobe o.strobe) := by
  simp [resample, checkStrobe, h, bind, Except.bind]

theorem resample_of_timebase (h₁ : strobeOk o.strobe = true)
    (h₂ : strobeOk (o.timebase.getD tr.timebase) = false) :
    resample t tr o = .error (.dump ("invalid VCD timebase " ++
      Error.numberLayout.render (o.timebase.getD tr.timebase) ++ " ps")) := by
  simp [resample, checkStrobe, h₁, h₂, bind, Except.bind, throw, throwThe, MonadExceptOf.throw]

theorem resample_of_muxed (h₁ : strobeOk o.strobe = true)
    (h₂ : strobeOk (o.timebase.getD tr.timebase) = true) (h₃ : o.muxedInScope t ≠ []) :
    resample t tr o = .error (.multiplexedPins (o.muxedInScope t)) := by
  simp [resample, checkStrobe, h₁, h₂, importedMux_eq_muxedInScope, h₃, bind, Except.bind,
    throw, throwThe, MonadExceptOf.throw]

theorem resample_of_stepCount (h₁ : strobeOk o.strobe = true)
    (h₂ : strobeOk (o.timebase.getD tr.timebase) = true) (h₃ : o.muxedInScope t = [])
    (h₄ : o.stepCount tr > maxSteps) : resample t tr o = .error (.invalidStrobe o.strobe) := by
  simp only [ImportOptions.stepCount] at h₄
  simp [resample, checkStrobe, h₁, h₂, importedMux_eq_muxedInScope, h₃, h₄, bind, Except.bind,
    throw, throwThe, MonadExceptOf.throw]

theorem resample_of_checks (h₁ : strobeOk o.strobe = true)
    (h₂ : strobeOk (o.timebase.getD tr.timebase) = true) (h₃ : o.muxedInScope t = [])
    (h₄ : ¬ o.stepCount tr > maxSteps) :
    resample t tr o = .ok (t.hardware.map fun hw => (hw,
      (((t.signals.filter o.imports).filter (·.hardware == hw)).foldl
        (resampleSignal tr (o.benchName <|> tr.topScope)
          (sampleTicks (o.stepCount tr).toUInt64.toNat (o.strobe / o.timebase.getD tr.timebase)
            tr.start))
        (emptyWave (o.stepCount tr).toUInt64.toNat o.strobe (o.timebase.getD tr.timebase) hw)).commit)) := by
  simp only [ImportOptions.stepCount] at h₄ ⊢
  simp [resample, checkStrobe, h₁, h₂, importedMux_eq_muxedInScope, h₃, h₄, bind, Except.bind,
    pure, Except.pure]

end Checks

/-- A resampling fails exactly on its four checks, in this order: a strobe period that is not a
finite number above zero; then such a tick length of the dump; then a multiplexed pin with two
or more imported members, the failure naming every member of every such pin; then a step count
past `2^32`. Otherwise it succeeds, with one wave per hardware group in group order, each as
long as the step count says, which is no step for a NaN count. The checked edits of its sampling
loop never fail, whatever the number of steps. -/
theorem resample_fails_on_checks (t : PinTable) (tr : Dump.Trace) (o : ImportOptions) :
    (strobeOk o.strobe = false → resample t tr o = .error (.invalidStrobe o.strobe)) ∧
    (strobeOk o.strobe = true → strobeOk (o.timebase.getD tr.timebase) = false →
      resample t tr o = .error (.dump ("invalid VCD timebase " ++
        Error.numberLayout.render (o.timebase.getD tr.timebase) ++ " ps"))) ∧
    (strobeOk o.strobe = true → strobeOk (o.timebase.getD tr.timebase) = true →
      o.muxedInScope t ≠ [] → resample t tr o = .error (.multiplexedPins (o.muxedInScope t))) ∧
    (strobeOk o.strobe = true → strobeOk (o.timebase.getD tr.timebase) = true →
      o.muxedInScope t = [] → o.stepCount tr > maxSteps →
      resample t tr o = .error (.invalidStrobe o.strobe)) ∧
    (strobeOk o.strobe = true → strobeOk (o.timebase.getD tr.timebase) = true →
      o.muxedInScope t = [] → ¬ o.stepCount tr > maxSteps →
      ∃ waves, resample t tr o = .ok waves ∧ waves.map (·.1) = t.hardware ∧
        ∀ p ∈ waves, p.2.length = (o.stepCount tr).toUInt64.toNat) ∧
    ((o.stepCount tr).isNaN = true → (o.stepCount tr).toUInt64.toNat = 0) ∧
    ∀ (sigs : List Signal) (len : Nat) (ratio : Float) (hw : HwPath),
      sigs.foldlM (resampleSignalByCalls tr (o.benchName <|> tr.topScope)
          (sampleTicks len ratio tr.start)) (emptyWave len o.strobe (o.timebase.getD tr.timebase) hw) =
        .ok (sigs.foldl (resampleSignal tr (o.benchName <|> tr.topScope)
          (sampleTicks len ratio tr.start)) (emptyWave len o.strobe (o.timebase.getD tr.timebase) hw)) := by
  refine ⟨resample_of_strobe, resample_of_timebase, resample_of_muxed, resample_of_stepCount,
    fun h₁ h₂ h₃ h₄ => ⟨_, resample_of_checks h₁ h₂ h₃ h₄, ?_, ?_⟩, toNat_toUInt64_of_isNaN,
    fun sigs len ratio hw => foldlM_resampleSignalByCalls sigs _ ?_⟩
  · rw [List.map_map]
    exact List.map_id _
  · -- each wave is its group's empty wave of the step count, resampled and committed
    intro p hp
    obtain ⟨hw, -, rfl⟩ := List.mem_map.1 hp
    rw [length_commit, length_foldl_resampleSignal]
    simp [emptyWave, Wave.zeros, Wave.make, length]
  · simp [sampleTicks, emptyWave, Wave.zeros, Wave.make, length]

end PinWave
