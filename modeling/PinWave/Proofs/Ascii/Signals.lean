import PinWave.Ascii.Text
import PinWave.Proofs.Pin.Groups
/-!
# The signals of an ASCII wave

An ASCII wave is read through its list of named level strings. Setting a signal replaces its
string in place or appends a new name at the end (`AsciiWave.signals_put_of_contains`,
`AsciiWave.signals_put_of_not_contains`), so names stay distinct; holding pads every string to
the longest with its last level and keeps that level (`AsciiWave.last_holdTo`). A wave of
traces with distinct names and one length is held already, and expanding it repeats each level.

## Main statements
* `AsciiWave.signals_modify_of_contains`, `AsciiWave.signals_modify_of_not_contains`.
* `AsciiWave.ofTraces_of_nodup`, `AsciiWave.expand_of_forall`.
-/

namespace PinWave.AsciiWave

/-- The names of a wave, in order. -/
def names (w : AsciiWave) : List String := w.signals.map (·.1)

/-! ## Length -/

theorem le_length {w : AsciiWave} {p : String × List Bool} (hp : p ∈ w.signals) :
    p.2.length ≤ w.length :=
  (PinTable.le_foldl_max (fun p : String × List Bool => p.2.length) w.signals 0).2 p hp

theorem length_le {w : AsciiWave} {n : Nat} (h : ∀ p ∈ w.signals, p.2.length ≤ n) :
    w.length ≤ n :=
  PinTable.foldl_max_le (fun p : String × List Bool => p.2.length) w.signals (Nat.zero_le n) h

/-- A wave whose strings all have one length, and that has a string, is that long. -/
theorem length_of_forall {w : AsciiWave} {n : Nat} (h : ∀ p ∈ w.signals, p.2.length = n)
    (hne : w.signals ≠ []) : w.length = n := by
  obtain ⟨p, hp⟩ := List.exists_mem_of_ne_nil _ hne
  exact Nat.le_antisymm (length_le fun q hq => (h q hq).le) ((h p hp).symm ▸ le_length hp)

/-! ## Setting a signal -/

theorem contains_iff {w : AsciiWave} {n : String} : w.contains n = true ↔ n ∈ w.names := by
  simp [contains, names]

theorem signals_put_of_contains {w : AsciiWave} {n : String} (h : w.contains n = true)
    (bits : List Bool) :
    (w.put n bits).signals = w.signals.map fun p => if p.1 = n then (n, bits) else p := by
  simp [put, h]

theorem signals_put_of_not_contains {w : AsciiWave} {n : String} (h : w.contains n = false)
    (bits : List Bool) : (w.put n bits).signals = w.signals ++ [(n, bits)] := by
  simp [put, h]

theorem names_put (w : AsciiWave) (n : String) (bits : List Bool) :
    (w.put n bits).names = if w.contains n then w.names else w.names ++ [n] := by
  cases h : w.contains n
  · simp [names, signals_put_of_not_contains h]
  · rw [names, signals_put_of_contains h, List.map_map, if_pos rfl]
    refine List.map_congr_left fun p hp => ?_
    by_cases hn : p.1 = n <;> simp [hn]

/-- Setting a signal keeps the names distinct. -/
theorem nodup_put {w : AsciiWave} (hnd : w.names.Nodup) (n : String) (bits : List Bool) :
    (w.put n bits).names.Nodup := by
  rw [names_put]
  cases h : w.contains n
  · rw [if_neg (by simp)]
    have hn : n ∉ w.names := fun hn => by simp [contains_iff.2 hn] at h
    exact hnd.append (List.nodup_singleton n) (by simpa using hn)
  · exact hnd

/-- With distinct names, a signal's levels are found by its name. -/
theorem get?_of_mem {w : AsciiWave} (hnd : w.names.Nodup) {p : String × List Bool}
    (hp : p ∈ w.signals) : w.get? p.1 = some p.2 := by
  unfold get?
  rw [List.find?_eq_some_iff_append.2 ?_]
  · rfl
  obtain ⟨pre, post, hsplit⟩ := List.append_of_mem hp
  refine ⟨by simp, pre, post, hsplit, fun q hq => ?_⟩
  rw [names, hsplit, List.map_append, List.map_cons, List.nodup_middle, List.nodup_cons] at hnd
  have hne : q.1 ≠ p.1 := fun h => hnd.1 (List.mem_append_left _ (List.mem_map.2 ⟨q, hq, h⟩))
  simp [hne]

theorem get?_eq_none {w : AsciiWave} {n : String} (h : w.contains n = false) : w.get? n = none := by
  unfold get?
  rw [List.find?_eq_none.2]
  · rfl
  intro p hp hpn
  have : w.contains n = true := contains_iff.2 (List.mem_map.2 ⟨p, hp, by simpa using hpn⟩)
  rw [h] at this
  cases this

/-! ## Holding levels -/

theorem holdTo_of_length_eq {len : Nat} {bits : List Bool} (h : bits.length = len) :
    holdTo len bits = bits := by
  simp [holdTo, h]

/-- Holding keeps the last level. -/
theorem last_holdTo (len : Nat) (bits : List Bool) :
    (holdTo len bits).getLast?.getD false = bits.getLast?.getD false := by
  unfold holdTo
  cases hr : len - bits.length with
  | zero => simp
  | succ k =>
    rw [List.replicate_succ', ← List.append_assoc, List.getLast?_append_of_ne_nil _ (by simp)]
    simp

/-- Holding to one more event adds the last level once. -/
theorem holdTo_succ {len : Nat} {bits : List Bool} (h : bits.length ≤ len) :
    holdTo (len + 1) bits = holdTo len bits ++ [(holdTo len bits).getLast?.getD false] := by
  rw [last_holdTo]
  unfold holdTo
  rw [show len + 1 - bits.length = (len - bits.length) + 1 by omega, List.replicate_succ',
    List.append_assoc]

theorem holdTo_holdTo {len len' : Nat} {bits : List Bool} (h : bits.length ≤ len)
    (hl : len ≤ len') : holdTo len' (holdTo len bits) = holdTo len' bits := by
  rw [show holdTo len' (holdTo len bits) = holdTo len bits ++
      List.replicate (len' - (holdTo len bits).length) ((holdTo len bits).getLast?.getD false) from rfl,
    last_holdTo, length_holdTo len bits h]
  unfold holdTo
  rw [List.append_assoc, List.replicate_append_replicate]
  congr 2
  omega

theorem signals_holdAll (w : AsciiWave) :
    w.holdAll.signals = w.signals.map fun p => (p.1, holdTo w.length p.2) := rfl

theorem names_holdAll (w : AsciiWave) : w.holdAll.names = w.names := by
  simp [names, signals_holdAll, Function.comp_def]

theorem length_holdAll (w : AsciiWave) : w.holdAll.length = w.length := by
  by_cases hs : w.signals = []
  · simp [length, holdAll, hs]
  · refine length_of_forall (fun p hp => ?_) (by simpa [signals_holdAll] using hs)
    obtain ⟨q, hq, rfl⟩ := List.mem_map.1 hp
    exact length_holdTo _ _ (le_length hq)

/-- A wave whose strings all have its length is held already. -/
theorem holdAll_of_forall {w : AsciiWave} (h : ∀ p ∈ w.signals, p.2.length = w.length) :
    w.holdAll = w := by
  have hs : w.holdAll.signals = w.signals := by
    rw [signals_holdAll]
    conv_rhs => rw [← List.map_id w.signals]
    exact List.map_congr_left fun p hp => by rw [holdTo_of_length_eq (h p hp)]; rfl
  calc w.holdAll = ⟨w.holdAll.signals⟩ := rfl
    _ = w := by rw [hs]

/-! ## Changing a signal -/

theorem signals_modify_of_contains {w : AsciiWave} (hnd : w.names.Nodup) {n : String}
    (h : w.contains n = true) (f : List Bool → List Bool) :
    (w.modify n f).signals = w.signals.map fun p => if p.1 = n then (n, f p.2) else p := by
  obtain ⟨p₀, hp₀, rfl⟩ := List.mem_map.1 (contains_iff.1 h)
  rw [modify, get?_of_mem hnd hp₀, Option.getD_some, signals_put_of_contains h]
  refine List.map_congr_left fun p hp => ?_
  by_cases hn : p.1 = p₀.1
  · -- one name, one signal
    have := get?_of_mem hnd hp
    rw [hn, get?_of_mem hnd hp₀, Option.some.injEq] at this
    simp [hn, this]
  · simp [hn]

theorem signals_modify_of_not_contains {w : AsciiWave} {n : String} (h : w.contains n = false)
    (f : List Bool → List Bool) :
    (w.modify n f).signals = w.signals ++ [(n, f (List.replicate w.length false))] := by
  rw [modify, get?_eq_none h, Option.getD_none, signals_put_of_not_contains h]

theorem names_modify (w : AsciiWave) (n : String) (f : List Bool → List Bool) :
    (w.modify n f).names = if w.contains n then w.names else w.names ++ [n] :=
  names_put _ _ _

/-! ## Waves of equal strings -/

theorem foldl_put_of_nodup (acc rest : List (String × List Bool))
    (hnd : ((acc ++ rest).map (·.1)).Nodup) :
    rest.foldl (fun (w : AsciiWave) (p : String × List Bool) => w.put p.1 p.2) ⟨acc⟩ =
      ⟨acc ++ rest⟩ := by
  induction rest generalizing acc with
  | nil => simp
  | cons p rest ih =>
    have hfresh : (⟨acc⟩ : AsciiWave).contains p.1 = false := by
      rw [List.map_append, List.map_cons, List.nodup_middle, List.nodup_cons] at hnd
      rw [Bool.eq_false_iff]
      intro hc
      exact hnd.1 (List.mem_append_left _ (contains_iff.1 hc))
    rw [List.foldl_cons, show (⟨acc⟩ : AsciiWave).put p.1 p.2 = ⟨acc ++ [p]⟩ by
      simp [put, hfresh], ih _ (by simpa using hnd)]
    simp

/-- A wave of traces with distinct names and one length holds exactly those traces. -/
theorem ofTraces_of_nodup {traces : List (String × List Bool)} (hnd : (traces.map (·.1)).Nodup)
    {n : Nat} (hlen : ∀ p ∈ traces, p.2.length = n) : ofTraces traces = ⟨traces⟩ := by
  have hfold : ofTraces traces = (⟨traces⟩ : AsciiWave).holdAll :=
    congrArg holdAll (foldl_put_of_nodup [] traces hnd)
  rw [hfold]
  refine holdAll_of_forall fun p hp => ?_
  rw [length_of_forall hlen (List.ne_nil_of_mem hp), hlen p hp]

/-- Expanding a wave whose strings have its length repeats each level `k` times. -/
theorem expand_of_forall {w : AsciiWave} (h : ∀ p ∈ w.signals, p.2.length = w.length) (k : Nat) :
    w.expand k = w.signals.map fun p => (p.1, p.2.flatMap (List.replicate k ·)) := by
  refine List.map_congr_left fun p hp => ?_
  have hsteps : (p.2.flatMap (List.replicate k ·)).length = w.length * k := by
    simp [List.length_flatMap, h p hp]
  simp only [holdTo_of_length_eq hsteps, List.take_of_length_le hsteps.le]

end PinWave.AsciiWave
