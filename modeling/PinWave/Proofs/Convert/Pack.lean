import PinWave.Proofs.Pin.Groups
import PinWave.Proofs.Wave.Bits
/-!
# Packing named traces into a wave

Packing reads the traces whose names are signals of the table (`knownTraces`) and checks, in
order, the strobe period, that some trace is known, that all known traces belong to the group of
the first, and that no multiplexed pin has two members named. It then ors each trace, held at its
last level to the longest length (`heldLevel`), into the bit of its signal (`packWords`), and
stages the default of every signal of the group that is neither named nor a member of a
multiplexed pin (`stageUnless`). Each bit of the result is then a function of the known traces
and the table (`packedBit`): the staged defaults never land on a bit that a trace drives, since
two signals of a group on one bit are members of one multiplexed pin.

## Main definitions
* `heldLevel`: the level of a trace at a step, held at its last level after its end.
* `packedBit`: the level packing must give a bit at a step.
* `Packed`: the wave packing must give.

## Main statements
* `pack_spec`: the answer of packing, refusal by refusal, and the packed wave.
-/

namespace PinWave

/-! ## The parts of a packing -/

/-- The traces whose names are signals of the table, each with its signal, in input order. -/
def knownTraces (t : PinTable) (traces : List (String × List Bool)) : List (Signal × List Bool) :=
  traces.filterMap fun p => (t.find? p.1).map (·, p.2)

/-- The members of a multiplexed pin that some known trace names, in the pin's order. -/
def namedIn (known : List (Signal × List Bool)) (m : MuxGroup) : List String :=
  m.signals.filter (known.map (·.1.name)).contains

/-- The length of the longest trace. -/
def longest (known : List (Signal × List Bool)) : Nat :=
  known.foldl (fun m e => max m e.2.length) 0

/-- The words of the known traces: each trace, held at its last level to the longest length,
ored into the bit of its signal. -/
def packWords (known : List (Signal × List Bool)) : List UInt64 :=
  known.foldl (fun vs e => orLevels (Wave.bitMask e.1.bit) vs (AsciiWave.holdTo (longest known) e.2))
    (List.replicate (longest known) 0)

/-- Stages the default of every signal of a list that a test does not pass. -/
def stageUnless (c : Signal → Bool) (sigs : List Signal) (w : Wave) : Wave :=
  sigs.foldl (fun w s => if c s then w else w.stageAt s.bit s.default) w

/-! ## The checks, in order -/

/-- A strobe period that is not finite and above zero is refused first. -/
theorem pack_invalidStrobe {t : PinTable} {traces : List (String × List Bool)} {strobe : Float}
    (h : strobeOk strobe = false) : pack t traces strobe = .error (.invalidStrobe strobe) := by
  simp [pack, checkStrobe, h, bind, Except.bind]

/-- Then an input with no known trace is refused. -/
theorem pack_noSignals {t : PinTable} {traces : List (String × List Bool)} {strobe : Float}
    (hS : strobeOk strobe = true) (hK : knownTraces t traces = []) :
    pack t traces strobe = .error .noSignals := by
  unfold knownTraces at hK
  simp [pack, checkStrobe, hS, bind, Except.bind, hK, throw, throwThe, MonadExceptOf.throw]


/-- Then the first known trace of another group than the first's is refused. -/
theorem pack_hardwareMismatch {t : PinTable} {traces : List (String × List Bool)} {strobe : Float}
    (hS : strobeOk strobe = true) {s₀ : Signal} {tr₀ : List Bool}
    (hK : (knownTraces t traces).head? = some (s₀, tr₀)) {e : Signal × List Bool}
    (he : (knownTraces t traces).find? (·.1.hardware != s₀.hardware) = some e) :
    pack t traces strobe = .error (.hardwareMismatch e.1.name s₀.hardware e.1.hardware) := by
  unfold pack
  unfold knownTraces at hK he
  generalize traces.filterMap _ = K at hK he ⊢
  simp only [checkStrobe, hS, if_true, bind, Except.bind, pure, Except.pure, hK, he]
  rfl

/-- Then a refusal of the check of multiplexed pins is the answer. -/
theorem pack_checkMux_error {t : PinTable} {traces : List (String × List Bool)} {strobe : Float}
    (hS : strobeOk strobe = true) {s₀ : Signal} {tr₀ : List Bool}
    (hK : (knownTraces t traces).head? = some (s₀, tr₀))
    (he : (knownTraces t traces).find? (·.1.hardware != s₀.hardware) = none) {err : Error}
    (hmux : checkMux t ((knownTraces t traces).map (·.1.name)) = .error err) :
    pack t traces strobe = .error err := by
  unfold pack
  unfold knownTraces at hK he hmux
  generalize traces.filterMap _ = K at hK he hmux ⊢
  simp only [checkStrobe, hS, if_true, bind, Except.bind, pure, Except.pure, hK, he, hmux]

/-- Past the checks, the packed words with the defaults of the group committed. -/
theorem pack_eq_ok {t : PinTable} {traces : List (String × List Bool)} {strobe : Float}
    (hS : strobeOk strobe = true) {s₀ : Signal} {tr₀ : List Bool}
    (hK : (knownTraces t traces).head? = some (s₀, tr₀))
    (he : (knownTraces t traces).find? (·.1.hardware != s₀.hardware) = none)
    (hmux : checkMux t ((knownTraces t traces).map (·.1.name)) = .ok ()) :
    pack t traces strobe = .ok (stageUnless
      (fun s => ((knownTraces t traces).map (·.1.name)).contains s.name || (t.muxGroupOf? s.name).isSome)
      (t.groupSignals s₀.hardware)
      (Wave.make (packWords (knownTraces t traces)) strobe (some s₀.hardware))).commit := by
  unfold pack
  unfold knownTraces at hK he hmux ⊢
  generalize traces.filterMap _ = K at hK he hmux ⊢
  simp only [checkStrobe, hS, if_true, bind, Except.bind, pure, Except.pure, hK, he, hmux]
  rfl


/-! ## Traversals that stop at the first failure -/

theorem forM_eq_ok_of_forall {α ε : Type} {f : α → Except ε Unit} {l : List α}
    (h : ∀ x ∈ l, f x = .ok ()) : l.forM f = .ok () := by
  induction l with
  | nil => rfl
  | cons x l ih =>
    show (f x >>= fun _ => l.forM f) = _
    rw [h x List.mem_cons_self, ih fun y hy => h y (List.mem_cons_of_mem _ hy)]
    rfl

theorem forM_append_cons_eq_error {α ε : Type} {f : α → Except ε Unit} {pre post : List α} {x : α}
    {e : ε} (hpre : ∀ y ∈ pre, f y = .ok ()) (hx : f x = .error e) :
    (pre ++ x :: post).forM f = .error e := by
  induction pre with
  | nil =>
    show (f x >>= fun _ => post.forM f) = _
    rw [hx]
    rfl
  | cons y pre ih =>
    show (f y >>= fun _ => (pre ++ x :: post).forM f) = _
    rw [hpre y List.mem_cons_self, ih fun z hz => hpre z (List.mem_cons_of_mem _ hz)]
    rfl

/-- The check of multiplexed pins passes when no pin has two present members. -/
theorem checkMux_eq_ok {t : PinTable} {present : List String}
    (h : ∀ m ∈ t.muxGroups, (m.signals.filter present.contains).length ≤ 1) :
    checkMux t present = .ok () :=
  forM_eq_ok_of_forall fun m hm => by simp [Nat.not_lt.2 (h m hm)]

/-- The check of multiplexed pins fails at the first pin with two present members, naming them. -/
theorem checkMux_eq_error {t : PinTable} {present : List String} {pre post : List MuxGroup}
    {m : MuxGroup} (hsplit : t.muxGroups = pre ++ m :: post)
    (hpre : ∀ m' ∈ pre, (m'.signals.filter present.contains).length ≤ 1)
    (hm : 1 < (m.signals.filter present.contains).length) :
    checkMux t present =
      .error (.ambiguousMux m.hardware m.bit.val (m.signals.filter present.contains)) := by
  unfold checkMux
  rw [hsplit]
  exact forM_append_cons_eq_error (fun m' hm' => by simp [Nat.not_lt.2 (hpre m' hm')])
    (by simp [hm])

/-! ## Held levels and packed words -/

/-- The level of a trace at step `i`: its level there, its last level after its end, and low
for an empty trace. -/
def heldLevel (tr : List Bool) (i : Nat) : Bool := tr.getD (min i (tr.length - 1)) false

/-- Holding a trace to a length gives its held level at every step. -/
theorem holdTo_eq_map_range {len : Nat} {tr : List Bool} (htr : tr.length ≤ len) :
    AsciiWave.holdTo len tr = (List.range len).map (heldLevel tr) := by
  refine List.ext_getElem (by simp [AsciiWave.length_holdTo len tr htr]) fun i h₁ h₂ => ?_
  rw [List.getElem_map, List.getElem_range]
  simp only [AsciiWave.holdTo, heldLevel, List.getElem_append]
  by_cases hi : i < tr.length
  · rw [dif_pos hi, List.getD_eq_getElem?_getD, Nat.min_eq_left (by omega),
      List.getElem?_eq_getElem hi, Option.getD_some]
  · -- past the end: the last level, or low for an empty trace
    rw [dif_neg hi, List.getElem_replicate, List.getD_eq_getElem?_getD,
      Nat.min_eq_right (by omega), List.getLast?_eq_getElem?]

/-- Oring levels given step by step into words given step by step. -/
theorem orLevels_map_map {α : Type} (bit : UInt64) (l : List α) (f : α → UInt64) (g : α → Bool) :
    orLevels bit (l.map f) (l.map g) = l.map fun a => if g a then f a ||| bit else f a := by
  induction l with
  | nil => rfl
  | cons a l ih => simp [orLevels, ih]

/-- Oring the held known traces into words, step by step: each step's word takes the bit of each
trace high at that step. -/
theorem foldl_orLevels_range {len : Nat} (known : List (Signal × List Bool))
    (hk : ∀ e ∈ known, e.2.length ≤ len) (f : Nat → UInt64) :
    known.foldl (fun vs e => orLevels (Wave.bitMask e.1.bit) vs (AsciiWave.holdTo len e.2))
        ((List.range len).map f) =
      (List.range len).map fun i =>
        known.foldl (fun v e => if heldLevel e.2 i then v ||| Wave.bitMask e.1.bit else v) (f i) := by
  induction known generalizing f with
  | nil => rfl
  | cons e known ih =>
    rw [List.foldl_cons, holdTo_eq_map_range (hk e List.mem_cons_self), orLevels_map_map,
      ih (fun e' h' => hk e' (List.mem_cons_of_mem _ h'))]
    rfl

theorem bitAt_foldl_or (known : List (Signal × List Bool)) (i : Nat) (v : UInt64) (b : Fin 64) :
    Wave.bitAt (known.foldl (fun v e => if heldLevel e.2 i then v ||| Wave.bitMask e.1.bit else v) v) b =
      (Wave.bitAt v b || known.any fun e => e.1.bit == b && heldLevel e.2 i) := by
  induction known generalizing v with
  | nil => simp
  | cons e known ih =>
    rw [List.foldl_cons, ih, List.any_cons]
    by_cases hl : heldLevel e.2 i
    · by_cases hb : e.1.bit = b
      · simp [hl, hb]
      · have hb' : (e.1.bit == b) = false := by simpa using hb
        simp [hl, hb', Ne.symm hb]
    · simp [hl]

theorem le_longest (known : List (Signal × List Bool)) : ∀ e ∈ known, e.2.length ≤ longest known :=
  (PinTable.le_foldl_max (fun e : Signal × List Bool => e.2.length) known 0).2

/-- The column of bit `b` of the packed words: at each step, whether a known trace on that bit is
high there. -/
theorem map_bitAt_packWords (known : List (Signal × List Bool)) (b : Fin 64) :
    (packWords known).map (Wave.bitAt · b) =
      (List.range (longest known)).map fun i => known.any fun e => e.1.bit == b && heldLevel e.2 i := by
  have hzero : List.replicate (longest known) (0 : UInt64) =
      (List.range (longest known)).map fun _ => 0 := by simp
  rw [packWords, hzero, foldl_orLevels_range known (le_longest known), List.map_map]
  refine List.map_congr_left fun i _ => ?_
  simp [bitAt_foldl_or]


/-! ## Staged defaults -/

section Stage

variable (c : Signal → Bool)

theorem stageUnless_cons (s : Signal) (sigs : List Signal) (w : Wave) :
    stageUnless c (s :: sigs) w = stageUnless c sigs (if c s then w else w.stageAt s.bit s.default) :=
  rfl

theorem stageUnless_append (sigs sigs' : List Signal) (w : Wave) :
    stageUnless c (sigs ++ sigs') w = stageUnless c sigs' (stageUnless c sigs w) :=
  List.foldl_append

/-- Staging keeps the words, the hardware and the strobe period. -/
theorem stageUnless_frame (sigs : List Signal) (w : Wave) :
    (stageUnless c sigs w).vector = w.vector ∧ (stageUnless c sigs w).hardware = w.hardware ∧
      (stageUnless c sigs w).strobe = w.strobe := by
  induction sigs generalizing w with
  | nil => exact ⟨rfl, rfl, rfl⟩
  | cons s sigs ih =>
    rw [stageUnless_cons, (ih _).1, (ih _).2.1, (ih _).2.2]
    split
    · exact ⟨rfl, rfl, rfl⟩
    · simp

/-- A bit that no staged signal has keeps its view. -/
theorem bitView_stageUnless_of_forall {sigs : List Signal} {b : Fin 64}
    (h : ∀ s ∈ sigs, c s = false → s.bit ≠ b) (w : Wave) :
    (stageUnless c sigs w).bitView b = w.bitView b := by
  induction sigs generalizing w with
  | nil => rfl
  | cons s sigs ih =>
    rw [stageUnless_cons, ih fun s' h' => h s' (List.mem_cons_of_mem _ h')]
    cases hc : c s
    · rw [if_neg (by simp)]
      exact Wave.bitView_stageAt_of_ne w (h s List.mem_cons_self hc).symm _
    · rw [if_pos rfl]

/-- A bit that one staged signal has is forced to that signal's default. -/
theorem bitView_stageUnless_of_unique {sigs : List Signal} (hnd : sigs.Nodup) {s : Signal}
    (hs : s ∈ sigs) (hcs : c s = false) (huniq : ∀ s' ∈ sigs, c s' = false → s'.bit = s.bit → s' = s)
    (w : Wave) : (stageUnless c sigs w).bitView s.bit = ((w.bitView s.bit).1, s.default, !s.default) := by
  obtain ⟨pre, post, rfl⟩ := List.append_of_mem hs
  have hout : s ∉ pre ++ post := (List.nodup_cons.1 (List.nodup_middle.1 hnd)).1
  -- no other staged signal has the bit
  have hfree : ∀ s' ∈ pre ++ post, c s' = false → s'.bit ≠ s.bit := by
    intro s' hs' hc' hb
    obtain rfl := huniq s' (List.mem_append.2 ((List.mem_append.1 hs').imp id
      (List.mem_cons_of_mem _))) hc' hb
    exact hout hs'
  rw [stageUnless_append, stageUnless_cons, if_neg (by simp [hcs]),
    bitView_stageUnless_of_forall c fun s' h' => hfree s' (List.mem_append_right _ h'),
    Wave.bitView_stageAt_self,
    bitView_stageUnless_of_forall c fun s' h' => hfree s' (List.mem_append_left _ h')]

end Stage


/-! ## The packed wave -/

/-- The level packing must give bit `b` at step `i`: the or of the held levels of the known traces
on that bit when there are any; otherwise the default of the group's signal on that bit that is a
member of no multiplexed pin, if there is one; otherwise low. -/
def packedBit (t : PinTable) (known : List (Signal × List Bool)) (hw : HwPath) (i : Nat)
    (b : Fin 64) : Bool :=
  if known.any (·.1.bit == b) then known.any fun e => e.1.bit == b && heldLevel e.2 i
  else ((t.signals.find? fun s => s.hardware == hw && s.bit == b && (t.muxGroupOf? s.name).isNone).map
    (·.default)).getD false

/-- A bit that exactly one known trace drives packs to that trace's held level. -/
theorem packedBit_of_unique {t : PinTable} {hw : HwPath} {known : List (Signal × List Bool)}
    {e : Signal × List Bool} (he : e ∈ known) (huniq : ∀ e' ∈ known, e'.1.bit = e.1.bit → e' = e)
    (i : Nat) : packedBit t known hw i e.1.bit = heldLevel e.2 i := by
  have hany : known.any (·.1.bit == e.1.bit) = true := List.any_eq_true.2 ⟨e, he, by simp⟩
  rw [packedBit, if_pos hany]
  cases hl : heldLevel e.2 i
  · rw [List.any_eq_false]
    intro e' he' h
    simp only [Bool.and_eq_true, beq_iff_eq] at h
    rw [huniq e' he' h.1, hl] at h
    cases h.2
  · exact List.any_eq_true.2 ⟨e, he, by simp [hl]⟩

/-- The wave that packing known traces into the group `hw` must give: the group as hardware, the
strobe period asked for, nothing staged, as many steps as the longest trace, and at each step
each bit at its packed level. -/
structure Packed (t : PinTable) (known : List (Signal × List Bool)) (hw : HwPath) (strobe : Float)
    (w : Wave) : Prop where
  hardware : w.hardware = some hw
  strobe : w.strobe = strobe
  mask : w.mask = 0
  unmask : w.unmask = 0
  length : w.length = longest known
  trace : ∀ b : Fin 64, w.trace b = (List.range (longest known)).map fun i => packedBit t known hw i b

theorem mem_signals_of_mem_knownTraces {t : PinTable} {traces : List (String × List Bool)}
    {e : Signal × List Bool} (he : e ∈ knownTraces t traces) : e.1 ∈ t.signals := by
  obtain ⟨p, -, hp⟩ := List.mem_filterMap.1 he
  obtain ⟨s, hs, rfl⟩ := Option.map_eq_some_iff.1 hp
  exact List.mem_of_find?_eq_some hs

theorem length_packWords (known : List (Signal × List Bool)) :
    (packWords known).length = longest known := by
  simpa using congrArg List.length (map_bitAt_packWords known 0)

theorem bitView_make (v : List UInt64) (strobe : Float) (hw : Option HwPath) (b : Fin 64) :
    (Wave.make v strobe hw).bitView b = (v.map (Wave.bitAt · b), false, false) := by
  simp [Wave.bitView, Wave.make]

theorem commitView_unstaged (col : List Bool) : Wave.commitView (col, false, false) = col := by
  simp [Wave.commitView]

theorem commitView_staged {col : List Bool} (hcol : ∀ x ∈ col, x = false) (d : Bool) :
    Wave.commitView (col, d, !d) = col.map fun _ => d := by
  unfold Wave.commitView
  exact List.map_congr_left fun x hx => by simp [hcol x hx]

section Table

variable {t : PinTable} (ht : t.WellFormed) {opened : List HwPath}
  (hg : PinTable.Grouped opened t.signals t.groups)
include ht hg

/-- A signal that shares the bit of its group with another signal is a member of a multiplexed
pin. -/
theorem muxGroupOf?_isSome_of_shared {s s' : Signal} (hs : s ∈ t.signals) (hs' : s' ∈ t.signals)
    (hne : s.name ≠ s'.name) (hhw : s.hardware = s'.hardware) (hbit : s.bit = s'.bit) :
    (t.muxGroupOf? s.name).isSome := by
  obtain ⟨m, hm, hsm, -⟩ := ht.exists_muxGroup hs hs' hne hhw hbit
  rw [(PinTable.muxGroupOf?_eq_some_iff ht hg).2 ⟨hm, hsm⟩]
  rfl

/-- A signal outside every multiplexed pin is the only signal of its group on its bit. -/
theorem eq_of_bit_eq_of_unmuxed {s s' : Signal} (hs : s ∈ t.signals) (hs' : s' ∈ t.signals)
    (hhw : s.hardware = s'.hardware) (hbit : s.bit = s'.bit) (hsm : t.muxGroupOf? s.name = none) :
    s = s' := by
  by_contra hne
  have hname : s.name ≠ s'.name := fun h => hne (List.inj_on_of_nodup_map ht.nodup hs hs' h)
  have := muxGroupOf?_isSome_of_shared ht hg hs hs' hname hhw hbit
  simp [hsm] at this

/-- A signal of the group that no known trace names and no multiplexed pin holds is on no bit that
a known trace drives. -/
theorem bit_ne_of_unstaged {known : List (Signal × List Bool)} {hw : HwPath}
    (hknown : ∀ e ∈ known, e.1 ∈ t.signals ∧ e.1.hardware = hw) {s : Signal}
    (hs : s ∈ t.groupSignals hw)
    (hc : ((known.map (·.1.name)).contains s.name || (t.muxGroupOf? s.name).isSome) = false)
    {e : Signal × List Bool} (he : e ∈ known) : s.bit ≠ e.1.bit := by
  intro hsb
  rw [PinTable.mem_groupSignals ht hg.members] at hs
  simp only [Bool.or_eq_false_iff, Option.isSome_eq_false_iff, Option.isNone_iff_eq_none] at hc
  -- outside every multiplexed pin, `s` is the one signal of its group on the bit: the driven one
  have hse : s = e.1 := eq_of_bit_eq_of_unmuxed ht hg hs.1 (hknown e he).1
    (hs.2.trans (hknown e he).2.symm) hsb hc.2
  have hin : (known.map (·.1.name)).contains s.name = true :=
    List.contains_iff_mem.2 (List.mem_map.2 ⟨e, he, by rw [hse]⟩)
  rw [hc.1] at hin
  cases hin

/-- Packing known traces of one group stages defaults so that each bit reads its packed level. -/
theorem commitView_packed {known : List (Signal × List Bool)} {hw : HwPath}
    (hknown : ∀ e ∈ known, e.1 ∈ t.signals ∧ e.1.hardware = hw) (strobe : Float) (b : Fin 64) :
    Wave.commitView ((stageUnless
        (fun s => (known.map (·.1.name)).contains s.name || (t.muxGroupOf? s.name).isSome)
        (t.groupSignals hw) (Wave.make (packWords known) strobe (some hw))).bitView b) =
      (List.range (longest known)).map fun i => packedBit t known hw i b := by
  by_cases hb : known.any (·.1.bit == b) = true
  · -- a known trace drives the bit, so no default is staged there
    obtain ⟨e, he, heb⟩ := List.any_eq_true.1 hb
    rw [beq_iff_eq] at heb
    have hfree : ∀ s ∈ t.groupSignals hw,
        ((known.map (·.1.name)).contains s.name || (t.muxGroupOf? s.name).isSome) = false →
          s.bit ≠ b :=
      fun s hs hc => heb ▸ bit_ne_of_unstaged ht hg hknown hs hc he
    rw [bitView_stageUnless_of_forall _ hfree, bitView_make, commitView_unstaged,
      map_bitAt_packWords]
    simp [packedBit, hb]
  · have hlow : ∀ i, (known.any fun e => e.1.bit == b && heldLevel e.2 i) = false := by
      intro i
      simp only [List.any_eq_false, Bool.and_eq_true, not_and]
      exact fun e he heb => absurd (List.any_eq_true.2 ⟨e, he, heb⟩) hb
    cases hf : t.signals.find? fun s => s.hardware == hw && s.bit == b &&
        (t.muxGroupOf? s.name).isNone with
    | none =>
      -- no signal of the group on the bit takes a default
      have hfree : ∀ s ∈ t.groupSignals hw,
          ((known.map (·.1.name)).contains s.name || (t.muxGroupOf? s.name).isSome) = false →
            s.bit ≠ b := by
        intro s hs hc hsb
        rw [PinTable.mem_groupSignals ht hg.members] at hs
        simp only [Bool.or_eq_false_iff] at hc
        have hnone : t.muxGroupOf? s.name = none := by simpa using hc.2
        have := List.find?_eq_none.1 hf s hs.1
        simp [hs.2, hsb, hnone] at this
      rw [bitView_stageUnless_of_forall _ hfree, bitView_make, commitView_unstaged,
        map_bitAt_packWords]
      simp [packedBit, hb, hf, hlow]
    | some s =>
      -- the one signal of the group on the bit outside every multiplexed pin takes its default
      have hsp := List.find?_some hf
      have hs := List.mem_of_find?_eq_some hf
      simp only [Bool.and_eq_true, beq_iff_eq, Option.isNone_iff_eq_none] at hsp
      obtain ⟨⟨hsw, rfl⟩, hsm⟩ := hsp
      have hsG : s ∈ t.groupSignals hw := (PinTable.mem_groupSignals ht hg.members).2 ⟨hs, hsw⟩
      -- no known trace names it, since none drives its bit
      have hcs : ((known.map (·.1.name)).contains s.name || (t.muxGroupOf? s.name).isSome) = false := by
        rw [hsm, Option.isSome_none, Bool.or_false, Bool.eq_false_iff]
        intro hc
        obtain ⟨e, he, hname⟩ := List.mem_map.1 (List.contains_iff_mem.1 hc)
        obtain rfl := List.inj_on_of_nodup_map ht.nodup (hknown e he).1 hs hname
        exact hb (List.any_eq_true.2 ⟨e, he, by simp⟩)
      have huniq : ∀ s' ∈ t.groupSignals hw,
          ((known.map (·.1.name)).contains s'.name || (t.muxGroupOf? s'.name).isSome) = false →
            s'.bit = s.bit → s' = s := by
        intro s' hs' _ hb'
        rw [PinTable.mem_groupSignals ht hg.members] at hs'
        exact (eq_of_bit_eq_of_unmuxed ht hg hs hs'.1 (hsw.trans hs'.2.symm) hb'.symm hsm).symm
      have hnd : (t.groupSignals hw).Nodup :=
        (PinTable.nodup_groupSignals_names ht hg.members hw).of_map _
      rw [bitView_stageUnless_of_unique _ hnd hsG hcs huniq, bitView_make, map_bitAt_packWords,
        commitView_staged (by simp [hlow]), List.map_map]
      refine List.map_congr_left fun i _ => ?_
      simp [packedBit, hb, hf]

/-- Packing known traces that all belong to the group of the first, with no multiplexed pin
named twice, gives the wave they must give. -/
theorem pack_packed {traces : List (String × List Bool)} {strobe : Float}
    (hS : strobeOk strobe = true) {s₀ : Signal} {tr₀ : List Bool}
    (hK : (knownTraces t traces).head? = some (s₀, tr₀))
    (hsame : ∀ e ∈ knownTraces t traces, e.1.hardware = s₀.hardware)
    (hmux : ∀ m ∈ t.muxGroups, (namedIn (knownTraces t traces) m).length ≤ 1) :
    ∃ w, pack t traces strobe = .ok w ∧ Packed t (knownTraces t traces) s₀.hardware strobe w := by
  have he : (knownTraces t traces).find? (·.1.hardware != s₀.hardware) = none :=
    List.find?_eq_none.2 fun e he' => by simp [hsame e he']
  refine ⟨_, pack_eq_ok hS hK he (checkMux_eq_ok hmux), ?_, ?_, Wave.mask_commit _,
    Wave.unmask_commit _, ?_, fun b => ?_⟩
  · rw [Wave.hardware_commit, (stageUnless_frame _ _ _).2.1]
    rfl
  · rw [Wave.strobe_commit, (stageUnless_frame _ _ _).2.2]
    rfl
  · rw [Wave.length_commit, Wave.length, (stageUnless_frame _ _ _).1]
    exact length_packWords _
  · rw [Wave.trace_commit]
    exact commitView_packed ht hg
      (fun e he => ⟨mem_signals_of_mem_knownTraces he, hsame e he⟩) strobe b

end Table


/-- Packing named traces over a table read from text. The known traces are those whose names are
signals of the table, in input order. A strobe period that is not finite and above zero is
refused first; then an input with no known trace; then the first known trace of another group
than the first's, naming it; then the first multiplexed pin with two or more members named by
known traces, naming them in the pin's order. Otherwise the packing gives the wave that the known
traces must give in the group of the first. -/
theorem pack_spec {text : String} {t : PinTable} (ht : PinTable.parse text = .ok t)
    (traces : List (String × List Bool)) (strobe : Float) :
    (strobeOk strobe = false → pack t traces strobe = .error (.invalidStrobe strobe)) ∧
    (strobeOk strobe = true → knownTraces t traces = [] →
      pack t traces strobe = .error .noSignals) ∧
    ∀ s₀ tr₀ rest, strobeOk strobe = true → knownTraces t traces = (s₀, tr₀) :: rest →
      (∀ pre e post, knownTraces t traces = pre ++ e :: post →
        (∀ e' ∈ pre, e'.1.hardware = s₀.hardware) → e.1.hardware ≠ s₀.hardware →
          pack t traces strobe = .error (.hardwareMismatch e.1.name s₀.hardware e.1.hardware)) ∧
      ((∀ e ∈ knownTraces t traces, e.1.hardware = s₀.hardware) →
        (∀ pre m post, t.muxGroups = pre ++ m :: post →
          (∀ m' ∈ pre, (namedIn (knownTraces t traces) m').length ≤ 1) →
          1 < (namedIn (knownTraces t traces) m).length →
            pack t traces strobe =
              .error (.ambiguousMux m.hardware m.bit.val (namedIn (knownTraces t traces) m))) ∧
        ((∀ m ∈ t.muxGroups, (namedIn (knownTraces t traces) m).length ≤ 1) →
          ∃ w, pack t traces strobe = .ok w ∧ Packed t (knownTraces t traces) s₀.hardware strobe w)) := by
  have wf := PinTable.parse_wellFormed ht
  have hg := PinTable.parse_grouped ht
  refine ⟨pack_invalidStrobe, pack_noSignals, fun s₀ tr₀ rest hS hK => ⟨?_, fun hsame => ⟨?_, ?_⟩⟩⟩
  all_goals have hhead : (knownTraces t traces).head? = some (s₀, tr₀) := by rw [hK]; rfl
  · -- the first known trace of another group
    intro pre e post hsplit hpre he
    refine pack_hardwareMismatch hS hhead (List.find?_eq_some_iff_append.2 ⟨by simpa using he,
      pre, post, hsplit, fun e' h' => by simp [hpre e' h']⟩)
  · -- the first multiplexed pin named twice
    intro pre m post hsplit hpre hm
    have he : (knownTraces t traces).find? (·.1.hardware != s₀.hardware) = none :=
      List.find?_eq_none.2 fun e he' => by simp [hsame e he']
    exact pack_checkMux_error hS hhead he (checkMux_eq_error hsplit hpre hm)
  · exact pack_packed wf hg hS hhead hsame

/-- A table of one group with a multiplexed pin, packed from a repeated name, a name it lacks and
one member of the pin. -/
theorem pack_spec_sample :
    ∃ t, PinTable.parse "HARDWARE A/x BEGIN\nS,I,0\nT,I,1,1\nM,I,2\nN,O,2\nEND\n" = .ok t ∧
      ∃ w, pack t [("S", [true]), ("Q", [false]), ("M", [false, true]), ("S", [false, false, true])]
          5.0 = .ok w ∧
        Packed t (knownTraces t [("S", [true]), ("Q", [false]), ("M", [false, true]),
          ("S", [false, false, true])]) ⟨["A", "x"]⟩ 5.0 w := by
  have hok : (PinTable.parse "HARDWARE A/x BEGIN\nS,I,0\nT,I,1,1\nM,I,2\nN,O,2\nEND\n").toOption.isSome = true := by
    decide +kernel
  cases ht : PinTable.parse "HARDWARE A/x BEGIN\nS,I,0\nT,I,1,1\nM,I,2\nN,O,2\nEND\n" with
  | error e =>
    rw [ht] at hok
    cases hok
  | ok t =>
    have hK : (PinTable.parse "HARDWARE A/x BEGIN\nS,I,0\nT,I,1,1\nM,I,2\nN,O,2\nEND\n").toOption.map
        (fun t => knownTraces t [("S", [true]), ("Q", [false]), ("M", [false, true]),
          ("S", [false, false, true])]) =
        some [(⟨"S", .input, 0, false, ⟨["A", "x"]⟩⟩, [true]),
          (⟨"M", .input, 2, false, ⟨["A", "x"]⟩⟩, [false, true]),
          (⟨"S", .input, 0, false, ⟨["A", "x"]⟩⟩, [false, false, true])] := by decide +kernel
    have hmux : (PinTable.parse "HARDWARE A/x BEGIN\nS,I,0\nT,I,1,1\nM,I,2\nN,O,2\nEND\n").toOption.map
        (fun t => t.muxGroups.all fun m => (namedIn (knownTraces t [("S", [true]), ("Q", [false]),
          ("M", [false, true]), ("S", [false, false, true])]) m).length ≤ 1) = some true := by
      decide +kernel
    rw [ht] at hK hmux
    simp only [Except.toOption, Option.map_some, Option.some.injEq, List.all_eq_true,
      decide_eq_true_eq] at hK hmux
    refine ⟨t, rfl, ((pack_spec ht _ 5.0).2.2 _ _ _ (by decide) hK).2 (fun e he => ?_) |>.2 hmux⟩
    rw [hK] at he
    simp only [List.mem_cons, List.not_mem_nil, or_false] at he
    rcases he with rfl | rfl | rfl <;> rfl

end PinWave
