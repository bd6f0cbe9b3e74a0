import PinWave.Proofs.Convert.Grid
import PinWave.Proofs.Wave.Bits
import PinWave.Proofs.Dump.History
import PinWave.Proofs.Pin.Table
/-!
# Resampling a dump onto the strobe grid

The wave of a group is built by resampling its imported signals one after the other into a wave
of zero words and committing once at the end. Each signal acts on its own bit only: it ors the
levels its history has at the ticks into that bit, or stages its default there. While the
signals go, the wave keeps one invariant (`Resampled`): each signal done reads its levels at its
bit once committed, and every other bit is low and unstaged. A signal keeps it as long as no
signal done shares its bit (`Resampled.step`), which the check for multiplexed pins ensures
(`PinTable.WellFormed.pairwise_bit_ne`); and since the ticks never decrease, the cursor that
reads a history along them reads the level at each tick (`History.cursorLevels_eq`).

## Main definitions
* `levelIn`: the level of an imported signal at a tick.
* `Resampled`: the invariant of a group's wave while its signals are resampled.

## Main statements
* `resample_spec`: the waves of a resampled dump, group by group and bit by bit.
-/

namespace PinWave

open Wave

/-- The level of an imported signal at a tick: that of its history in the dump, or its default
when the dump lacks it. -/
def levelIn (tr : Dump.Trace) (bench : Option String) (s : Signal) (tick : Nat) : Bool :=
  match tr.history? (scopedName bench s.name) with
  | some h => h.levelAt tick
  | none => s.default

/-! ## Resampling one group -/

section Group

variable {tr : Dump.Trace} {bench : Option String} {ticks : List Nat} {len : Nat}

/-- The wave of a group while its signals are resampled, `done` being those resampled so far:
each of them reads its levels at the ticks at its bit once committed, and every other bit is low
in every word and unstaged. -/
structure Resampled (tr : Dump.Trace) (bench : Option String) (ticks : List Nat) (len : Nat)
    (done : List Signal) (w : Wave) : Prop where
  length : w.vector.length = len
  untouched : ∀ b : Fin 64, (∀ s ∈ done, s.bit ≠ b) →
    w.bitView b = (List.replicate len false, false, false)
  sampled : ∀ s ∈ done, commitView (w.bitView s.bit) = ticks.map (levelIn tr bench s)

theorem resampled_emptyWave (len : Nat) (strobe timebase : Float) (hw : HwPath) :
    Resampled tr bench ticks len [] (emptyWave len strobe timebase hw) :=
  ⟨by simp [emptyWave, Wave.zeros, Wave.make],
    fun _ _ => by simp [bitView, emptyWave, Wave.zeros, Wave.make], fun _ hs => by cases hs⟩

theorem hardware_resampleSignal (w : Wave) (s : Signal) :
    (resampleSignal tr bench ticks w s).hardware = w.hardware := by
  unfold resampleSignal
  split <;> simp

theorem strobe_resampleSignal (w : Wave) (s : Signal) :
    (resampleSignal tr bench ticks w s).strobe = w.strobe := by
  unfold resampleSignal
  split <;> simp

/-- Resampling a signal changes the view of its own bit only. -/
theorem bitView_resampleSignal_of_ne (w : Wave) {s : Signal} {b : Fin 64} (hb : b ≠ s.bit) :
    (resampleSignal tr bench ticks w s).bitView b = w.bitView b := by
  unfold resampleSignal
  split
  · simp [bitView, map_bitAt_orLevels_of_ne hb]
  · exact bitView_stageAt_of_ne w hb _

/-- One signal keeps the invariant when no signal done shares its bit: its bit was untouched,
and it now reads the levels of its history, read by a cursor along ticks that do not decrease,
or its default staged. -/
theorem Resampled.step {done : List Signal} {w : Wave} {s : Signal}
    (hw : Resampled tr bench ticks len done w) (hnew : ∀ s' ∈ done, s'.bit ≠ s.bit)
    (hsorted : ∀ h, tr.history? (scopedName bench s.name) = some h → h.Sorted)
    (hticks : ticks.Pairwise (· ≤ ·)) (hlen : ticks.length = len) :
    Resampled tr bench ticks len (done ++ [s]) (resampleSignal tr bench ticks w s) := by
  have hold := hw.untouched s.bit hnew
  simp only [bitView, Prod.mk.injEq] at hold
  obtain ⟨hbits, hmask, hunmask⟩ := hold
  have hlow : ∀ v ∈ w.vector, bitAt v s.bit = false := fun v hv =>
    (List.eq_replicate_iff.1 hbits).2 _ (List.mem_map_of_mem hv)
  refine ⟨?_, fun b hb => ?_, fun s' hs' => ?_⟩
  · unfold resampleSignal
    split
    · simp [length_orLevels, hw.length]
    · simp [hw.length]
  · have hbs : b ≠ s.bit := fun h => hb s (by simp) h.symm
    rw [bitView_resampleSignal_of_ne w hbs]
    exact hw.untouched b fun s' hs' => hb s' (List.mem_append_left _ hs')
  · rcases List.mem_append.1 hs' with hs' | hs'
    · rw [bitView_resampleSignal_of_ne w (hnew s' hs')]
      exact hw.sampled s' hs'
    · rw [List.mem_singleton.1 hs']
      unfold resampleSignal
      split
      · -- the levels the cursor reads are ored into a bit low in every word
        rename_i h hh
        have hlev : h.cursorLevels ticks = ticks.map (levelIn tr bench s) := by
          rw [History.cursorLevels_eq (hsorted h hh) hticks]
          exact List.map_congr_left fun t _ => by rw [levelIn, hh]
        have hl : (h.cursorLevels ticks).length = w.vector.length := by
          rw [hlev, List.length_map, hlen, hw.length]
        simp only [commitView, bitView, map_bitAt_orLevels_self hlow hl, hmask, hunmask]
        rw [hlev]
        simp
      · -- the default is staged over a bit low in every word
        rename_i hh
        rw [bitView_stageAt_self, bitView, hbits]
        have hdef : ticks.map (levelIn tr bench s) = ticks.map fun _ => s.default :=
          List.map_congr_left fun t _ => by rw [levelIn, hh]
        rw [hdef, List.map_const', hlen]
        simp [commitView]

/-- Signals on distinct bits, none on a bit of a signal done, keep the invariant. -/
theorem Resampled.foldl (hticks : ticks.Pairwise (· ≤ ·)) (hlen : ticks.length = len) :
    ∀ (sigs done : List Signal) (w : Wave), Resampled tr bench ticks len done w →
      sigs.Pairwise (fun a b => a.bit ≠ b.bit) → (∀ s ∈ sigs, ∀ s' ∈ done, s'.bit ≠ s.bit) →
      (∀ s ∈ sigs, ∀ h, tr.history? (scopedName bench s.name) = some h → h.Sorted) →
      Resampled tr bench ticks len (done ++ sigs) (sigs.foldl (resampleSignal tr bench ticks) w)
  | [], done, w, hw, _, _, _ => by simpa using hw
  | s :: sigs, done, w, hw, hp, hnew, hs => by
    obtain ⟨hs₁, hp⟩ := List.pairwise_cons.1 hp
    rw [List.foldl_cons, show done ++ s :: sigs = (done ++ [s]) ++ sigs by simp]
    refine Resampled.foldl hticks hlen sigs _ _
      (hw.step (hnew s List.mem_cons_self) (hs s List.mem_cons_self) hticks hlen) hp ?_
      fun s' hs' => hs s' (List.mem_cons_of_mem _ hs')
    intro s' hs' s'' hs''
    rcases List.mem_append.1 hs'' with hs'' | hs''
    · exact hnew s' (List.mem_cons_of_mem _ hs') s'' hs''
    · rw [List.mem_singleton.1 hs'']
      exact hs₁ s' hs'

/-- Once committed, a signal done reads its levels at its bit. -/
theorem Resampled.trace_of_mem {done : List Signal} {w : Wave}
    (hw : Resampled tr bench ticks len done w) {s : Signal} (hs : s ∈ done) :
    w.commit.trace s.bit = ticks.map (levelIn tr bench s) := by
  rw [trace_commit, hw.sampled s hs]

/-- Once committed, a bit of no signal done is low at every step. -/
theorem Resampled.trace_of_forall_ne {done : List Signal} {w : Wave}
    (hw : Resampled tr bench ticks len done w) {b : Fin 64} (hb : ∀ s ∈ done, s.bit ≠ b) :
    w.commit.trace b = List.replicate len false := by
  rw [trace_commit, hw.untouched b hb]
  simp [commitView]

theorem hardware_strobe_foldl (sigs : List Signal) (w : Wave) :
    (sigs.foldl (resampleSignal tr bench ticks) w).hardware = w.hardware ∧
      (sigs.foldl (resampleSignal tr bench ticks) w).strobe = w.strobe := by
  induction sigs generalizing w with
  | nil => exact ⟨rfl, rfl⟩
  | cons s sigs ih =>
    rw [List.foldl_cons, (ih _).1, (ih _).2, hardware_resampleSignal, strobe_resampleSignal]
    exact ⟨rfl, rfl⟩

end Group

/-! ## The checks before resampling -/

theorem one_lt_length_of_ne {l : List String} {a b : String} (ha : a ∈ l) (hb : b ∈ l)
    (hne : a ≠ b) : 1 < l.length := by
  have hlen := List.length_erase_of_mem ha
  have hpos := List.length_pos_of_mem ((List.mem_erase_of_ne (Ne.symm hne)).2 hb)
  omega

/-- With no multiplexed pin of more than one imported member, the imported signals of a group of
a well-formed table sit on distinct bits. -/
theorem PinTable.WellFormed.pairwise_bit_ne {t : PinTable} (ht : t.WellFormed) (p : Signal → Bool)
    (hmux : t.importedMux ((t.signals.filter p).map (·.name)) = []) (hw : HwPath) :
    ((t.signals.filter p).filter (·.hardware == hw)).Pairwise fun a b => a.bit ≠ b.bit := by
  have hnames : t.signals.Pairwise fun a b => a.name ≠ b.name := List.pairwise_map.1 ht.nodup
  refine (hnames.sublist ((List.filter_sublist).trans List.filter_sublist)).imp_of_mem ?_
  intro a b ha hb hne hbit
  simp only [List.mem_filter, beq_iff_eq] at ha hb
  obtain ⟨m, hm, ham, hbm⟩ :=
    ht.exists_muxGroup ha.1.1 hb.1.1 hne (ha.2.trans hb.2.symm) hbit
  -- that pin has two imported members, so the check lists it
  have himp : ∀ s ∈ t.signals, p s = true →
      ((t.signals.filter p).map (·.name)).contains s.name = true := fun s hs hps => by
    simpa using ⟨s, ⟨hs, hps⟩, rfl⟩
  have hlen : 1 < (m.signals.filter ((t.signals.filter p).map (·.name)).contains).length :=
    one_lt_length_of_ne (List.mem_filter.2 ⟨ham, himp a ha.1.1 ha.1.2⟩)
      (List.mem_filter.2 ⟨hbm, himp b hb.1.1 hb.1.2⟩) hne
  have hin : a.name ∈ t.importedMux ((t.signals.filter p).map (·.name)) :=
    List.mem_flatMap.2 ⟨m, List.mem_filter.2 ⟨hm, by simpa using hlen⟩, ham⟩
  rw [hmux] at hin
  cases hin

/-- What a successful resampling has checked, and the waves it gives. -/
theorem resample_ok {t : PinTable} {tr : Dump.Trace} {o : ImportOptions}
    {waves : List (HwPath × Wave)} (h : resample t tr o = .ok waves) :
    strobeOk o.strobe = true ∧ strobeOk (o.timebase.getD tr.timebase) = true ∧
    t.importedMux ((t.signals.filter o.imports).map (·.name)) = [] ∧
    ¬ Double.floor ((UInt64.ofNat (tr.finish - tr.start)).toFloat /
        (o.strobe / o.timebase.getD tr.timebase)) > maxSteps ∧
    waves = t.hardware.map fun hw => (hw,
      (((t.signals.filter o.imports).filter (·.hardware == hw)).foldl
        (resampleSignal tr (o.benchName <|> tr.topScope)
          (sampleTicks (Double.floor ((UInt64.ofNat (tr.finish - tr.start)).toFloat /
            (o.strobe / o.timebase.getD tr.timebase))).toUInt64.toNat
            (o.strobe / o.timebase.getD tr.timebase) tr.start))
        (emptyWave (Double.floor ((UInt64.ofNat (tr.finish - tr.start)).toFloat /
            (o.strobe / o.timebase.getD tr.timebase))).toUInt64.toNat o.strobe
          (o.timebase.getD tr.timebase) hw)).commit) := by
  unfold resample checkStrobe at h
  by_cases h₁ : strobeOk o.strobe = true
  · by_cases h₂ : strobeOk (o.timebase.getD tr.timebase) = true
    · by_cases h₃ : t.importedMux ((t.signals.filter o.imports).map (·.name)) = []
      · by_cases h₄ : Double.floor ((UInt64.ofNat (tr.finish - tr.start)).toFloat /
            (o.strobe / o.timebase.getD tr.timebase)) > maxSteps
        · simp [h₁, h₂, h₃, h₄, bind, Except.bind, pure, Except.pure, throw, throwThe] at h
        · simp only [h₁, h₂, h₃, h₄, if_true, if_false, Bool.not_true, Bool.false_eq_true,
            List.isEmpty_nil, bind, Except.bind, pure, Except.pure, Except.ok.injEq] at h
          exact ⟨h₁, h₂, h₃, h₄, h.symm⟩
      · simp [h₁, h₂, h₃, bind, Except.bind] at h
    · simp [h₁, h₂, bind, Except.bind] at h
  · simp [h₁, bind, Except.bind] at h

theorem Dump.Trace.sorted_of_history? {tr : Dump.Trace} (hsorted : ∀ p ∈ tr.signals, p.2.Sorted)
    {name : String} {h : History} (hh : tr.history? name = some h) : h.Sorted := by
  obtain ⟨p, hp, rfl⟩ := Option.map_eq_some_iff.1 hh
  exact hsorted p (List.mem_of_find?_eq_some hp)

/-! ## The waves -/

/-- The ratio of the strobe period to the tick length of a resampling, as the nearest double. -/
def ImportOptions.ratio (o : ImportOptions) (tr : Dump.Trace) : ℚ :=
  Double.gridRatio o.strobe (o.timebase.getD tr.timebase)

/-- The number of steps of a resampling. -/
def ImportOptions.steps (o : ImportOptions) (tr : Dump.Trace) : Nat :=
  Double.gridLength (tr.finish - tr.start) (o.ratio tr)

/-- The tick that step `i` of a resampling samples. -/
def ImportOptions.tick (o : ImportOptions) (tr : Dump.Trace) (i : Nat) : Nat :=
  Double.gridTick tr.start (o.ratio tr) i

/-- The wave a resampling must give for the group `hw`: the group as hardware, the strobe period
asked for, nothing staged, one word per step; at step `i`, the bit of each imported signal of
the group holds the signal's level at the tick of the step, and every other bit is low. -/
structure GroupWave (t : PinTable) (tr : Dump.Trace) (o : ImportOptions) (hw : HwPath) (w : Wave) :
    Prop where
  hardware : w.hardware = some hw
  strobe : w.strobe = o.strobe
  mask : w.mask = 0
  unmask : w.unmask = 0
  length : w.length = o.steps tr
  imported : ∀ s ∈ t.signals, o.imports s = true → s.hardware = hw →
    w.trace s.bit = (List.range (o.steps tr)).map fun i =>
      levelIn tr (o.benchName <|> tr.topScope) s (o.tick tr i)
  low : ∀ b : Fin 64, (∀ s ∈ t.signals, o.imports s = true → s.hardware = hw → s.bit ≠ b) →
    w.trace b = List.replicate (o.steps tr) false

/-- Resampling a dump onto the strobe grid. For a pin table read from text and a dump whose
histories have their changes in tick order and whose last tick fits in 64 bits, a resampling
that succeeds gives one wave per hardware group, in group order, each the wave its group must
have; no step samples past the last tick of the dump. -/
theorem resample_spec {text : String} {t : PinTable} {tr : Dump.Trace} {o : ImportOptions}
    {waves : List (HwPath × Wave)} (ht : PinTable.parse text = .ok t)
    (hsorted : ∀ p ∈ tr.signals, p.2.Sorted) (hfin : tr.finish < 2 ^ 64)
    (h : resample t tr o = .ok waves) :
    waves.map (·.1) = t.hardware ∧ (∀ i < o.steps tr, o.tick tr i ≤ tr.finish) ∧
      ∀ hw w, (hw, w) ∈ waves → GroupWave t tr o hw w := by
  obtain ⟨h₁, h₂, h₃, h₄, rfl⟩ := resample_ok h
  obtain ⟨hlen, hticks, hle⟩ := Double.grid_eq h₁ h₂ hfin h₄
  change _ = o.steps tr at hlen
  change sampleTicks (o.steps tr) _ tr.start = (List.range (o.steps tr)).map (o.tick tr) at hticks
  have wf := PinTable.parse_wellFormed ht
  -- the ticks are those of the grid, in order
  have hmono : ((List.range (o.steps tr)).map (o.tick tr)).Pairwise (· ≤ ·) :=
    List.Pairwise.map _ (fun _ _ hij => Double.gridTick_mono _ (Double.toRat_nearest_nonneg _) hij.le)
      List.pairwise_lt_range
  rw [hlen, hticks]
  refine ⟨by rw [List.map_map]; exact List.map_id _, hle, fun hw w hmem => ?_⟩
  obtain ⟨hw', -, hpair⟩ := List.mem_map.1 hmem
  cases hpair
  have h0 : Resampled tr (o.benchName <|> tr.topScope) ((List.range (o.steps tr)).map (o.tick tr))
      (o.steps tr) [] (emptyWave (o.steps tr) o.strobe (o.timebase.getD tr.timebase) hw) :=
    resampled_emptyWave _ _ _ _
  have hrun := Resampled.foldl hmono (by simp) _ [] _ h0 (wf.pairwise_bit_ne o.imports h₃ hw)
    (by simp) (fun _ _ _ hh => Dump.Trace.sorted_of_history? hsorted hh)
  have hmem' : ∀ s, s ∈ (t.signals.filter o.imports).filter (·.hardware == hw) ↔
      s ∈ t.signals ∧ o.imports s = true ∧ s.hardware = hw := by
    intro s
    simp only [List.mem_filter, beq_iff_eq, and_assoc]
  refine ⟨?_, ?_, mask_commit _, unmask_commit _, ?_, fun s hs hi hsw => ?_, fun b hb => ?_⟩
  · rw [hardware_commit, (hardware_strobe_foldl _ _).1]
    rfl
  · rw [strobe_commit, (hardware_strobe_foldl _ _).2]
    rfl
  · rw [length_commit]
    exact hrun.length
  · rw [hrun.trace_of_mem ((hmem' s).2 ⟨hs, hi, hsw⟩), List.map_map]
    rfl
  · exact hrun.trace_of_forall_ne fun s hs => by
      obtain ⟨hs, hi, hsw⟩ := (hmem' s).1 (by simpa using hs)
      exact hb s hs hi hsw

/-- Two inputs of one group, resampled at two ticks a step from a dump that has only the first
under its test bench scope. -/
theorem resample_spec_sample :
    let tr : Dump.Trace :=
      ⟨[("tb.clk", History.ofChanges [(0, false), (5, true)])], 0, 10, 1.0, some "tb"⟩
    let o : ImportOptions := { strobe := 2.0 }
    ∃ t waves, PinTable.parse "HARDWARE top BEGIN\nclk,I,0\nrst,I,1,1\nEND\n" = .ok t ∧
      resample t tr o = .ok waves ∧
      waves.map (·.1) = t.hardware ∧ (∀ i < o.steps tr, o.tick tr i ≤ tr.finish) ∧
      ∀ hw w, (hw, w) ∈ waves → GroupWave t tr o hw w := by
  intro tr o
  have hp : (PinTable.parse "HARDWARE top BEGIN\nclk,I,0\nrst,I,1,1\nEND\n").toOption.map
      (fun t => (t.signals, t.groups, t.muxGroups)) =
      some ([⟨"clk", .input, 0, false, ⟨["top"]⟩⟩, ⟨"rst", .input, 1, true, ⟨["top"]⟩⟩],
        [(⟨["top"]⟩, ["clk", "rst"])], []) := by decide +kernel
  have hsorted : ∀ p ∈ tr.signals, p.2.Sorted := by
    simp only [tr, List.forall_mem_singleton, History.Sorted, History.ofChanges]
    decide +kernel
  cases ht : PinTable.parse "HARDWARE top BEGIN\nclk,I,0\nrst,I,1,1\nEND\n" with
  | error e =>
    rw [ht] at hp
    cases hp
  | ok t =>
    rw [ht] at hp
    obtain ⟨sigs, groups, muxes⟩ := t
    simp only [Except.toOption, Option.map_some, Option.some.injEq, Prod.mk.injEq] at hp
    obtain ⟨rfl, rfl, rfl⟩ := hp
    have hr : (resample ⟨[⟨"clk", .input, 0, false, ⟨["top"]⟩⟩, ⟨"rst", .input, 1, true, ⟨["top"]⟩⟩],
        [(⟨["top"]⟩, ["clk", "rst"])], []⟩ tr o).toOption.isSome = true := by decide +kernel
    cases hres : resample ⟨[⟨"clk", .input, 0, false, ⟨["top"]⟩⟩, ⟨"rst", .input, 1, true, ⟨["top"]⟩⟩],
        [(⟨["top"]⟩, ["clk", "rst"])], []⟩ tr o with
    | error e =>
      rw [hres] at hr
      cases hr
    | ok waves => exact ⟨_, waves, rfl, hres, resample_spec ht hsorted (by decide) hres⟩

end PinWave
