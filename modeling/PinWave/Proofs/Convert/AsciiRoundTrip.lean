import PinWave.Proofs.Convert.Pack
import PinWave.Proofs.Ascii.Signals
import PinWave.Proofs.Convert.Grid

/-!
# A wave of a group as ASCII and back

`toAscii` renders a wave as one string of levels per signal of its group, and `packAscii` stretches
each level over `max k 1` steps and packs the strings back. For a group with no multiplexed pin
the two are inverse up to the stretch and the group's bits: the rendered strings are the signals'
traces as they stand, expanding them repeats every level, and packing holds every bit of the group
at its signal's level while every other bit stays low: every signal of the group is driven, so
no default is staged. The packing half rests on `pack_packed`, which says bit by bit what `pack`
builds; here its defaults are empty and its levels are the stretched traces.
-/

namespace PinWave

/-- The bits of a group's signals, as one word. -/
def PinTable.groupMask (t : PinTable) (hw : HwPath) : UInt64 :=
  (t.groupSignals hw).foldl (fun m s => m ||| Wave.bitMask s.bit) 0

theorem bitAt_foldl_bitMask (sigs : List Signal) (v : UInt64) (b : Fin 64) :
    Wave.bitAt (sigs.foldl (fun m s => m ||| Wave.bitMask s.bit) v) b =
      (Wave.bitAt v b || sigs.any (·.bit == b)) := by
  induction sigs generalizing v with
  | nil => simp
  | cons s sigs ih =>
    rw [List.foldl_cons, ih, List.any_cons]
    by_cases hb : s.bit = b
    · simp [hb]
    · have hb' : (s.bit == b) = false := by simpa using hb
      simp [hb', Ne.symm hb]

theorem bitAt_groupMask (t : PinTable) (hw : HwPath) (b : Fin 64) :
    Wave.bitAt (t.groupMask hw) b = (t.groupSignals hw).any (·.bit == b) := by
  simp [PinTable.groupMask, bitAt_foldl_bitMask]

/-- Words are equal when every bit of them is. -/
theorem eq_of_map_bitAt {l₁ l₂ : List UInt64}
    (h : ∀ b : Fin 64, l₁.map (Wave.bitAt · b) = l₂.map (Wave.bitAt · b)) : l₁ = l₂ := by
  have hlen : l₁.length = l₂.length := by simpa using congrArg List.length (h 0)
  refine List.ext_getElem hlen fun i h₁ h₂ => ?_
  apply UInt64.toBitVec_inj.1
  apply BitVec.eq_of_getLsbD_eq
  intro j hj
  have := congrArg (fun l => l[i]?) (h ⟨j, hj⟩)
  simp only [List.getElem?_map, List.getElem?_eq_getElem h₁, List.getElem?_eq_getElem h₂,
    Option.map_some, Option.some.injEq] at this
  exact this

/-- Repeating each element `k` times puts element `i / k` at `i`. -/
theorem getElem?_flatMap_replicate {α β : Type} (l : List α) {k : Nat} (hk : 0 < k) (f : α → β)
    (i : Nat) : (l.flatMap fun v => List.replicate k (f v))[i]? = l[i / k]?.map f := by
  induction l generalizing i with
  | nil => simp
  | cons v l ih =>
    rw [List.flatMap_cons]
    by_cases hi : i < k
    · rw [List.getElem?_append_left (by simpa using hi), List.getElem?_replicate,
        Nat.div_eq_of_lt hi]
      simp [hi]
    · rw [List.getElem?_append_right (by simp; omega), List.length_replicate, ih,
        show i / k = (i - k) / k + 1 by rw [Nat.div_eq_sub_div hk (by omega)]]
      rfl

theorem length_trace (w : Wave) (b : Nat) : (w.trace b).length = w.length := by
  unfold Wave.trace
  split <;> simp [Wave.length]

/-- Without a window, the traces of a wave are the whole levels of its signals. -/
theorem signalTraces_none (t : PinTable) (w : Wave) :
    signalTraces t w none = (t.waveSignals w).map fun s => (s.name, w.trace s.bit) := by
  refine List.map_congr_left fun s _ => ?_
  simp [List.take_of_length_le (length_trace w _).le]

/-- The known traces of traces named after signals of the table are those signals'. -/
theorem knownTraces_map_name {t : PinTable} (ht : t.WellFormed) {sigs : List Signal}
    (hsigs : ∀ s ∈ sigs, s ∈ t.signals) (f : Signal → List Bool) :
    knownTraces t (sigs.map fun s => (s.name, f s)) = sigs.map fun s => (s, f s) := by
  rw [knownTraces, List.filterMap_map]
  induction sigs with
  | nil => rfl
  | cons s sigs ih =>
    rw [List.filterMap_cons, List.map_cons]
    have hs : t.find? s.name = some s := PinTable.findIn_of_mem ht.nodup (hsigs s List.mem_cons_self)
    rw [Function.comp_apply, hs, ih fun s' h' => hsigs s' (List.mem_cons_of_mem _ h')]
    rfl

theorem longest_of_forall {known : List (Signal × List Bool)} {n : Nat}
    (h : ∀ e ∈ known, e.2.length = n) (hne : known ≠ []) : longest known = n := by
  obtain ⟨e, he⟩ := List.exists_mem_of_ne_nil _ hne
  refine Nat.le_antisymm ?_ ((h e he).symm ▸ le_longest known e he)
  exact PinTable.foldl_max_le (fun e : Signal × List Bool => e.2.length) known (Nat.zero_le n)
    fun e' h' => (h e' h').le

theorem isNaN_of_strobeOk {x : Float} (h : strobeOk x = true) : x.isNaN = false := by
  obtain ⟨m, e, hm, hx⟩ := Double.exists_unpack_of_strobeOk h
  simp only [Float.isNaN, Float.Model.isNaN, hx]
  rfl

section Group

variable {t : PinTable} (ht : t.WellFormed) {opened : List HwPath}
  (hg : PinTable.Grouped opened t.signals t.groups) {hw : HwPath}
  (hmux : ∀ m ∈ t.muxGroups, m.hardware ≠ hw)
include ht hg hmux

/-- In a group with no multiplexed pin, no two signals share a bit. -/
theorem eq_of_bit_eq {s s' : Signal} (hs : s ∈ t.groupSignals hw) (hs' : s' ∈ t.groupSignals hw)
    (hb : s.bit = s'.bit) : s = s' := by
  rw [PinTable.mem_groupSignals ht hg.members] at hs hs'
  by_contra hne
  have hname : s.name ≠ s'.name := fun h => hne (List.inj_on_of_nodup_map ht.nodup hs.1 hs'.1 h)
  obtain ⟨m, hm, hsm, -⟩ := ht.exists_muxGroup hs.1 hs'.1 hname (hs.2.trans hs'.2.symm) hb
  have hm' : m ∈ t.muxReference := by rwa [← PinTable.muxGroups_eq_muxReference ht hg]
  obtain ⟨s'', hs'', hn, hhw, -⟩ := PinTable.exists_signal_of_mem_muxReference hm' hsm
  -- the member named like `s` is `s`, so the pin lies in the group
  obtain rfl := List.inj_on_of_nodup_map ht.nodup hs'' hs.1 hn
  exact hmux m hm (hhw.symm.trans hs.2)

/-- Each column of a group's stretched levels, packed, is the stretched column of the wave where
a signal of the group has the bit, and low elsewhere. -/
theorem map_packedBit_stretched (w : Wave) (k : Nat) (b : Fin 64) :
    (List.range (w.length * k)).map (fun i => packedBit t ((t.groupSignals hw).map fun s =>
        (s, (w.trace s.bit).flatMap (List.replicate k ·))) hw i b) =
      w.vector.flatMap fun v => List.replicate k (Wave.bitAt v b && (t.groupSignals hw).any (·.bit == b)) := by
  by_cases hany : (t.groupSignals hw).any (·.bit == b) = true
  · -- the one signal of the group on the bit
    obtain ⟨s, hs, hsb⟩ := List.any_eq_true.1 hany
    rw [beq_iff_eq] at hsb
    subst hsb
    have hstretch : ((w.trace s.bit).flatMap (List.replicate k ·)).length = w.length * k := by
      simp [List.length_flatMap, length_trace]
    have hcol : ∀ i, packedBit t ((t.groupSignals hw).map fun s =>
        (s, (w.trace s.bit).flatMap (List.replicate k ·))) hw i s.bit =
          heldLevel ((w.trace s.bit).flatMap (List.replicate k ·)) i := by
      -- no other signal of the group shares the bit
      refine packedBit_of_unique (List.mem_map.2 ⟨s, hs, rfl⟩) (fun e' he' hb => ?_)
      obtain ⟨s', hs', rfl⟩ := List.mem_map.1 he'
      obtain rfl := eq_of_bit_eq ht hg hmux hs' hs hb
      rfl
    rw [List.map_congr_left fun i _ => hcol i, ← holdTo_eq_map_range hstretch.le,
      AsciiWave.holdTo_of_length_eq hstretch, Wave.trace_eq, List.flatMap_map]
    simp [hany]
  · -- no signal of the group is on the bit, so nothing drives it and no default lands there
    have hnone : ∀ s ∈ t.signals, s.hardware = hw → s.bit ≠ b := by
      intro s hs hsw hsb
      exact hany (List.any_eq_true.2
        ⟨s, (PinTable.mem_groupSignals ht hg.members).2 ⟨hs, hsw⟩, by simp [hsb]⟩)
    have hcol : ∀ i, packedBit t ((t.groupSignals hw).map fun s =>
        (s, (w.trace s.bit).flatMap (List.replicate k ·))) hw i b = false := by
      intro i
      have hK : (((t.groupSignals hw).map fun s =>
          (s, (w.trace s.bit).flatMap (List.replicate k ·))).any (·.1.bit == b)) = false := by
        simpa [Function.comp_def] using hany
      have hf : (t.signals.find? fun s => s.hardware == hw && s.bit == b &&
          (t.muxGroupOf? s.name).isNone) = none := by
        rw [List.find?_eq_none]
        intro s hs
        simp only [Bool.and_eq_true, beq_iff_eq, not_and]
        exact fun hsw => absurd hsw.2 (hnone s hs hsw.1)
      simp [packedBit, hK, hf]
    rw [List.map_congr_left fun i _ => hcol i]
    simp only [Bool.eq_false_iff.2 hany, Bool.and_false]
    rw [List.map_const', List.length_range, eq_comm, List.eq_replicate_iff]
    refine ⟨by simp [List.length_flatMap, Wave.length], fun x hx => ?_⟩
    obtain ⟨v, -, hv⟩ := List.mem_flatMap.1 hx
    exact (List.eq_of_mem_replicate hv)

/-- Rendering a wave of a group with signals and no multiplexed pin as an ASCII wave, and
packing that back with each event lasting `max k 1` steps, gives the group's signals' levels,
then each word repeated and cut to the group's bits. -/
theorem packAscii_toAscii_ok (hsig : t.groupSignals hw ≠ []) {w : Wave}
    (hwh : w.hardware = some hw) (hS : strobeOk w.strobe = true) (k : Nat) :
    (toAscii t w).signals = (t.groupSignals hw).map (fun s => (s.name, w.trace s.bit)) ∧
    ∃ w', packAscii t (toAscii t w) k w.strobe = .ok w' ∧ w'.hardware = some hw ∧
      w'.strobe = w.strobe ∧
      w'.vector = w.vector.flatMap fun v => List.replicate (max k 1) (v &&& t.groupMask hw) := by
  have hsigs : ∀ s ∈ t.groupSignals hw, s ∈ t.signals ∧ s.hardware = hw :=
    fun _ hs => (PinTable.mem_groupSignals ht hg.members).1 hs
  have hnames := PinTable.nodup_groupSignals_names ht hg.members hw
  have hlevels : ∀ p ∈ (t.groupSignals hw).map (fun s => (s.name, w.trace s.bit)),
      p.2.length = w.length := fun p hp => by
    obtain ⟨s, -, rfl⟩ := List.mem_map.1 hp
    exact length_trace w _
  -- the ASCII wave holds the group's levels as they are
  have hA : toAscii t w = ⟨(t.groupSignals hw).map fun s => (s.name, w.trace s.bit)⟩ := by
    rw [toAscii, signalTraces_none]
    simp only [PinTable.waveSignals, hwh]
    exact AsciiWave.ofTraces_of_nodup (by rw [List.map_map]; exact hnames) hlevels
  have hlen : (toAscii t w).length = w.length := by
    rw [hA]
    exact AsciiWave.length_of_forall hlevels (by simpa using hsig)
  -- expanding repeats every level, so the known traces are the group's stretched levels
  have hK : knownTraces t ((toAscii t w).expand (max k 1)) = (t.groupSignals hw).map fun s =>
      (s, (w.trace s.bit).flatMap (List.replicate (max k 1) ·)) := by
    rw [AsciiWave.expand_of_forall (fun p hp => ?_), hA, List.map_map]
    · exact knownTraces_map_name ht (fun s hs => (hsigs s hs).1) _
    · rw [hlen]
      rw [hA] at hp
      exact hlevels p hp
  obtain ⟨s₀, rest, hcons⟩ := List.exists_cons_of_ne_nil hsig
  have hhead : (knownTraces t ((toAscii t w).expand (max k 1))).head? =
      some (s₀, (w.trace s₀.bit).flatMap (List.replicate (max k 1) ·)) := by
    rw [hK, hcons]
    rfl
  have hs₀ : s₀.hardware = hw := (hsigs s₀ (hcons ▸ List.mem_cons_self)).2
  have hsame : ∀ e ∈ knownTraces t ((toAscii t w).expand (max k 1)), e.1.hardware = s₀.hardware := by
    intro e he
    rw [hK] at he
    obtain ⟨s, hs, rfl⟩ := List.mem_map.1 he
    exact (hsigs s hs).2.trans hs₀.symm
  -- no multiplexed pin lies in the group, so none has a member named
  have hnamed : ∀ m ∈ t.muxGroups, (namedIn (knownTraces t ((toAscii t w).expand (max k 1))) m).length ≤ 1 := by
    intro m hm
    suffices namedIn (knownTraces t ((toAscii t w).expand (max k 1))) m = [] by simp [this]
    rw [namedIn, List.filter_eq_nil_iff]
    intro n hn hc
    rw [hK, List.map_map, List.contains_iff_mem] at hc
    obtain ⟨s, hs, rfl⟩ := List.mem_map.1 hc
    have hm' : m ∈ t.muxReference := by rwa [← PinTable.muxGroups_eq_muxReference ht hg]
    obtain ⟨s', hs', hn', hhw, -⟩ := PinTable.exists_signal_of_mem_muxReference hm' hn
    obtain rfl := List.inj_on_of_nodup_map ht.nodup hs' (hsigs s hs).1 hn'
    exact hmux m hm (hhw.symm.trans (hsigs s' hs).2)
  obtain ⟨w', hpack, hP⟩ := pack_packed ht hg hS hhead hsame hnamed
  refine ⟨by rw [hA], w', hpack, by rw [hP.hardware, hs₀], hP.strobe, ?_⟩
  -- the words agree bit by bit
  have hlong : longest (knownTraces t ((toAscii t w).expand (max k 1))) = w.length * max k 1 := by
    rw [hK]
    refine longest_of_forall (fun e he => ?_) (by simpa using hsig)
    obtain ⟨s, -, rfl⟩ := List.mem_map.1 he
    simp [List.length_flatMap, length_trace]
  refine eq_of_map_bitAt fun b => ?_
  rw [← Wave.trace_eq, hP.trace b, hlong, hK, hs₀, map_packedBit_stretched ht hg hmux,
    List.map_flatMap]
  simp [bitAt_groupMask]

end Group

/-- An ASCII wave of a group and back. For a pin table read from text, a group with signals and
no multiplexed pin, and a wave of that group with a valid strobe period, the ASCII wave has one
string per signal of the group, in group order, each the signal's levels. Packing it back with
each event lasting `k` steps, at least one, gives a wave of the group with the same strobe
period, `max k 1` times as long, whose step `i` is the word of step `i / max k 1` cut to the
group's bits; so with `k ≤ 1` a wave that uses only the group's bits comes back the same. -/
theorem packAscii_toAscii {text : String} {t : PinTable} (ht : PinTable.parse text = .ok t)
    {hw : HwPath} (hsig : t.groupSignals hw ≠ []) (hmux : ∀ m ∈ t.muxGroups, m.hardware ≠ hw)
    {w : Wave} (hwh : w.hardware = some hw) (hS : strobeOk w.strobe = true) (k : Nat) :
    (toAscii t w).signals = (t.groupSignals hw).map (fun s => (s.name, w.trace s.bit)) ∧
    ∃ w', packAscii t (toAscii t w) k w.strobe = .ok w' ∧ w'.hardware = some hw ∧
      w'.strobe = w.strobe ∧ w'.length = w.length * max k 1 ∧
      (∀ i, w'.vector[i]? = w.vector[i / max k 1]?.map (· &&& t.groupMask hw)) ∧
      (k ≤ 1 → (∀ v ∈ w.vector, v &&& t.groupMask hw = v) → w'.same w = true) := by
  obtain ⟨hA, w', hpack, hhw, hstrobe, hvec⟩ :=
    packAscii_toAscii_ok (PinTable.parse_wellFormed ht) (PinTable.parse_grouped ht) hmux hsig hwh
      hS k
  refine ⟨hA, w', hpack, hhw, hstrobe, ?_, fun i => ?_, fun hk hmask => ?_⟩
  · rw [Wave.length, hvec]
    simp [List.length_flatMap, Wave.length]
  · rw [hvec, getElem?_flatMap_replicate _ (by omega)]
  · -- one step per event, and no bit outside the group
    have hone : ∀ v ∈ w.vector, List.replicate (max k 1) (v &&& t.groupMask hw) = [v] :=
      fun v hv => by rw [hmask v hv, show max k 1 = 1 by omega]; rfl
    have hvec' : w'.vector = w.vector := by
      rw [hvec, List.flatMap_congr hone]
      simp
    simp [Wave.same, hvec', hhw, hwh, hstrobe, Double.beq_self (isNaN_of_strobeOk hS)]

/-- A group of two signals on bits 0 and 2 beside a group with a multiplexed pin, and a wave of
two steps of the first, rendered and packed back with events of three steps. -/
theorem packAscii_toAscii_sample :
    let text := "HARDWARE A/x BEGIN\nS,I,0\nT,O,2\nEND\nHARDWARE B/y BEGIN\nU,I,0\nV,I,0\nEND\n"
    let w : Wave := ⟨[5, 2], 10.0, some ⟨["A", "x"]⟩, 0, 0, ⟨[]⟩⟩
    ∃ t, PinTable.parse text = .ok t ∧ t.groupSignals ⟨["A", "x"]⟩ ≠ [] ∧
      (∀ m ∈ t.muxGroups, m.hardware ≠ ⟨["A", "x"]⟩) ∧
      (toAscii t w).signals = (t.groupSignals ⟨["A", "x"]⟩).map (fun s => (s.name, w.trace s.bit)) ∧
      ∃ w', packAscii t (toAscii t w) 3 w.strobe = .ok w' ∧ w'.hardware = some ⟨["A", "x"]⟩ ∧
        w'.strobe = w.strobe ∧ w'.length = w.length * max 3 1 ∧
        (∀ i, w'.vector[i]? = w.vector[i / max 3 1]?.map (· &&& t.groupMask ⟨["A", "x"]⟩)) ∧
        (3 ≤ 1 → (∀ v ∈ w.vector, v &&& t.groupMask ⟨["A", "x"]⟩ = v) → w'.same w = true) := by
  intro text w
  have hok : (PinTable.parse text).toOption.map (fun t => decide (t.groupSignals ⟨["A", "x"]⟩ ≠ []) &&
      t.muxGroups.all (·.hardware != ⟨["A", "x"]⟩)) = some true := by decide +kernel
  cases ht : PinTable.parse text with
  | error e =>
    rw [ht] at hok
    cases hok
  | ok t =>
    rw [ht] at hok
    simp only [Except.toOption, Option.map_some, Option.some.injEq, Bool.and_eq_true,
      decide_eq_true_eq, List.all_eq_true, bne_iff_ne, ne_eq] at hok
    exact ⟨t, rfl, hok.1, hok.2, packAscii_toAscii ht hok.1 hok.2 rfl (by decide) 3⟩

end PinWave
