import PinWave.Proofs.Ascii.Signals
/-!
# Edits of an ASCII wave

Every wave built from no signals, a first event, explicit traces or text, by any run of edits,
has distinct names (`AsciiWave.Reachable.nodup`). On such a wave each edit says exactly what it
does to every string, and only appends: with `L` the wave's number of events, it first holds
every string to `L` with its last level, then writes the new events, then holds again.

`pulse` and `append` change one signal by a fixed number of events between two holds, so both are
cases of `AsciiWave.signals_hold_modify`. `setSignals` folds its settings over the held wave; a
repeated name cuts its string back to `L` before its level, so the last setting wins, and a new
name is filled low up to `L` however long the wave already is. The fold is described by
`AsciiWave.settled`, which one more setting carries to the next (`settled_append_singleton`).

## Main statements
* `AsciiWave.signals_setSignals`, `AsciiWave.signals_pulse`, `AsciiWave.signals_append`.
* `AsciiWave.Reachable.edits_exact`: the edits of every reachable wave are `ExactEdits`.
-/

namespace PinWave.AsciiWave

/-! ## Reachable waves -/

/-- The waves a user can build: no signals, a first event, explicit traces or text, then any run
of edits. -/
inductive Reachable : AsciiWave → Prop
  | empty : Reachable empty
  | init (names : List String) (value : Bool) : Reachable (init names value)
  | ofTraces (traces : List (String × List Bool)) : Reachable (ofTraces traces)
  | parse {text : String} {a : AsciiWave} : parse text = .ok a → Reachable a
  | setSignals {a : AsciiWave} (values : List (String × Bool)) :
      Reachable a → Reachable (a.setSignals values)
  | pulse {a : AsciiWave} (name : String) (width : Nat) : Reachable a → Reachable (a.pulse name width)
  | appendText {a a' : AsciiWave} (name bits : String) :
      Reachable a → a.appendText name bits = .ok a' → Reachable a'

theorem nodup_modify {w : AsciiWave} (hnd : w.names.Nodup) (n : String)
    (f : List Bool → List Bool) : (w.modify n f).names.Nodup :=
  nodup_put hnd n _

theorem nodup_holdAll {w : AsciiWave} (hnd : w.names.Nodup) : w.holdAll.names.Nodup := by
  rwa [names_holdAll]

/-- A fold of steps that each keep names distinct keeps them distinct. -/
theorem nodup_foldl {α : Type} {step : AsciiWave → α → AsciiWave}
    (hstep : ∀ w x, w.names.Nodup → (step w x).names.Nodup) (l : List α) {w : AsciiWave}
    (hw : w.names.Nodup) : (l.foldl step w).names.Nodup := by
  induction l generalizing w with
  | nil => exact hw
  | cons x l ih => exact ih (hstep w x hw)

/-- Reading a line adds a name the wave does not have. -/
theorem readLine_eq_ok {w w' : AsciiWave} {line : List Char} (h : readLine w line = .ok w') :
    ∃ n bits, w.contains n = false ∧ w' = w.put n bits := by
  -- every branch refuses the line but the last, which puts a name the wave lacks
  unfold readLine at h
  split at h
  · cases h
  · cases h
  · dsimp only at h
    split at h
    · cases h
    · split at h
      · cases h
      · split at h
        · cases h
        · rename_i hfresh
          cases h
          exact ⟨_, _, Bool.eq_false_iff.2 hfresh, rfl⟩

theorem nodup_readLines {w a : AsciiWave} (hw : w.names.Nodup) {lines : List (Nat × String)}
    (h : readLines w lines = .ok a) : a.names.Nodup := by
  induction lines generalizing w with
  | nil =>
    cases h
    exact hw
  | cons l lines ih =>
    unfold readLines at h
    dsimp only at h
    split at h
    · exact ih hw h
    · exact ih hw h
    · split at h
      · obtain ⟨n, bits, -, rfl⟩ := readLine_eq_ok ‹_›
        exact ih (nodup_put hw n bits) h
      · cases h

/-- Every reachable wave has distinct names. -/
theorem Reachable.nodup {a : AsciiWave} (h : a.Reachable) : a.names.Nodup := by
  induction h with
  | empty => exact List.nodup_nil
  | init names value =>
    exact nodup_foldl (fun w n hw => nodup_put hw n [value]) names List.nodup_nil
  | ofTraces traces =>
    exact nodup_holdAll (nodup_foldl (fun w p hw => nodup_put hw p.1 p.2) traces List.nodup_nil)
  | parse h =>
    have h0 : AsciiWave.empty.names.Nodup := List.nodup_nil
    exact nodup_readLines h0 h
  | setSignals values _ ih =>
    exact nodup_holdAll (nodup_foldl (fun w p hw => nodup_modify hw p.1 _) values
      (nodup_holdAll ih))
  | pulse name width _ ih => exact nodup_holdAll (nodup_modify (nodup_holdAll ih) name _)
  | appendText name bits _ happ ih =>
    -- refused levels build nothing; accepted ones are appended
    unfold AsciiWave.appendText at happ
    split at happ
    · cases happ
    · cases happ
      exact nodup_holdAll (nodup_modify (nodup_holdAll ih) name _)

/-! ## One signal changed between two holds -/

/-- A wave with a string of length `n` and none longer is `n` events long. -/
theorem length_eq_of_mem {w : AsciiWave} {n : Nat} (hle : ∀ p ∈ w.signals, p.2.length ≤ n)
    {p : String × List Bool} (hp : p ∈ w.signals) (hn : p.2.length = n) : w.length = n :=
  Nat.le_antisymm (length_le hle) (hn ▸ le_length hp)

theorem contains_holdAll (w : AsciiWave) (n : String) : w.holdAll.contains n = w.contains n := by
  rw [Bool.eq_iff_iff, contains_iff, contains_iff, names_holdAll]

/-- Every string of a held wave has the wave's length. -/
theorem length_of_mem_holdAll {w : AsciiWave} {p : String × List Bool}
    (hp : p ∈ w.holdAll.signals) : p.2.length = w.holdAll.length := by
  rw [signals_holdAll] at hp
  obtain ⟨q, hq, rfl⟩ := List.mem_map.1 hp
  rw [length_holdAll]
  exact length_holdTo _ _ (le_length hq)

theorem eq_of_signals {w w' : AsciiWave} (h : w.signals = w'.signals) : w = w' := by
  cases w
  cases w'
  cases h
  rfl

theorem getLast?_replicate_false (n : Nat) : (List.replicate n false).getLast?.getD false = false := by
  cases n <;> simp [List.getLast?_replicate]

/-- Changing a signal of a wave with distinct names: in place, or appended low for every event
so far. -/
theorem signals_modify {w : AsciiWave} (hnd : w.names.Nodup) (n : String)
    (f : List Bool → List Bool) :
    (w.modify n f).signals = w.signals.map (fun p => if p.1 = n then (n, f p.2) else p) ++
      (if w.contains n then [] else [(n, f (List.replicate w.length false))]) := by
  cases hc : w.contains n
  · -- no string has the name, so the map changes nothing
    have hid : ∀ p ∈ w.signals, (if p.1 = n then (n, f p.2) else p) = p := fun p hp =>
      if_neg fun h => by
        rw [← Bool.not_eq_true, contains_iff] at hc
        exact hc (h ▸ List.mem_map_of_mem hp)
    rw [signals_modify_of_not_contains hc, List.map_congr_left hid]
    simp
  · rw [signals_modify_of_contains hnd hc, if_pos rfl, List.append_nil]

section Held

variable {w : AsciiWave} (hnd : w.names.Nodup) (hw : ∀ p ∈ w.signals, p.2.length = w.length)
  (n : String) {k : Nat} (f : List Bool → List Bool) (hf : ∀ b, (f b).length = b.length + k)
include hnd hw hf

/-- Changing one signal of a held wave by `k` more events makes it `k` events longer. -/
theorem length_modify_of_held : (w.modify n f).length = w.length + k := by
  have hle : ∀ p ∈ (w.modify n f).signals, p.2.length ≤ w.length + k := by
    intro p hp
    rw [signals_modify hnd] at hp
    rcases List.mem_append.1 hp with hp | hp
    · obtain ⟨q, hq, rfl⟩ := List.mem_map.1 hp
      split <;> simp [hf, hw q hq]
    · split at hp <;> simp_all
  cases hc : w.contains n
  · refine length_eq_of_mem hle (p := (n, f (List.replicate w.length false))) ?_ (by simp [hf])
    simp [signals_modify hnd, hc]
  · obtain ⟨q, hq, rfl⟩ := List.mem_map.1 (contains_iff.1 hc)
    refine length_eq_of_mem hle (p := (q.1, f q.2)) ?_ (by simp [hf, hw q hq])
    rw [signals_modify hnd]
    exact List.mem_append_left _ (List.mem_map.2 ⟨q, hq, by simp⟩)

/-- Changing one signal of a held wave by `k` more events and holding again: the changed string
as changed, every other held to the new length. -/
theorem signals_holdAll_modify_of_held :
    (w.modify n f).holdAll.signals =
      w.signals.map (fun p => (p.1, if p.1 = n then f p.2 else holdTo (w.length + k) p.2)) ++
        (if w.contains n then [] else [(n, f (List.replicate w.length false))]) := by
  rw [signals_holdAll, length_modify_of_held hnd hw n f hf, signals_modify hnd, List.map_append,
    List.map_map]
  congr 1
  · refine List.map_congr_left fun p hp => ?_
    by_cases hpn : p.1 = n
    · simp [hpn, holdTo_of_length_eq, hf, hw p hp]
    · simp [hpn]
  · split <;> simp [holdTo_of_length_eq, hf]

end Held

/-- Holding, changing one signal by `k` more events and holding again: the changed signal is its
held levels, changed, or a new one changed from low levels; every other is held to `k` more
events. -/
theorem signals_hold_modify {a : AsciiWave} (hnd : a.names.Nodup) (n : String) {k : Nat}
    (f : List Bool → List Bool) (hf : ∀ b, (f b).length = b.length + k) :
    (a.holdAll.modify n f).holdAll.signals =
      a.signals.map (fun p => (p.1, if p.1 = n then f (holdTo a.length p.2)
        else holdTo (a.length + k) p.2)) ++
        (if a.contains n then [] else [(n, f (List.replicate a.length false))]) := by
  rw [signals_holdAll_modify_of_held (nodup_holdAll hnd) (fun p hp => length_of_mem_holdAll hp) n f
    hf, contains_holdAll, length_holdAll, signals_holdAll, List.map_map]
  congr 1
  refine List.map_congr_left fun p hp => ?_
  by_cases hpn : p.1 = n
  · simp [hpn]
  · simp [hpn, holdTo_holdTo (le_length hp) (Nat.le_add_right _ k)]

/-- A pulse on a held string: its levels, then the opposite of its last level `width` times, then
the last level again; on a new signal, low levels, `width` high ones and a low one. -/
theorem signals_pulse {a : AsciiWave} (hnd : a.names.Nodup) (n : String) (width : Nat) :
    (a.pulse n width).signals =
      a.signals.map (fun p => (p.1, if p.1 = n then
          holdTo a.length p.2 ++ List.replicate width (!(holdTo a.length p.2).getLast?.getD false) ++
            [(holdTo a.length p.2).getLast?.getD false]
        else holdTo (a.length + width + 1) p.2)) ++
        (if a.contains n then [] else
          [(n, List.replicate a.length false ++ List.replicate width true ++ [false])]) := by
  have hf : ∀ b : List Bool, (b ++ List.replicate width (!b.getLast?.getD false) ++
      [b.getLast?.getD false]).length = b.length + (width + 1) := fun b => by simp
  rw [pulse, signals_hold_modify hnd n _ hf]
  -- a new signal starts low, so its pulse is high
  simp only [getLast?_replicate_false, Bool.not_false]
  rfl

/-- Appending levels to a held string; a new signal is low for every earlier event. -/
theorem signals_append {a : AsciiWave} (hnd : a.names.Nodup) (n : String) (bits : List Bool) :
    (a.append n bits).signals =
      a.signals.map (fun p => (p.1, if p.1 = n then holdTo a.length p.2 ++ bits
        else holdTo (a.length + bits.length) p.2)) ++
        (if a.contains n then [] else [(n, List.replicate a.length false ++ bits)]) :=
  signals_hold_modify hnd n (· ++ bits) fun _ => List.length_append

/-! ## Setting several signals in one event -/

/-- The last level that settings give a name. -/
def lastValue (values : List (String × Bool)) (n : String) : Option Bool :=
  (values.filter (·.1 == n)).getLast?.map (·.2)

/-- The names that settings add to a wave, in order of first setting. -/
def newNames (w : AsciiWave) (values : List (String × Bool)) : List String :=
  ((values.map (·.1)).filter fun n => !w.contains n).eraseDups

theorem lastValue_nil (n : String) : lastValue [] n = none := rfl

theorem lastValue_append_singleton (values : List (String × Bool)) (m : String) (v : Bool)
    (n : String) :
    lastValue (values ++ [(m, v)]) n = if m = n then some v else lastValue values n := by
  by_cases h : m = n <;> simp [lastValue, List.filter_append, h]

theorem isSome_lastValue {values : List (String × Bool)} {n : String}
    (h : n ∈ values.map (·.1)) : (lastValue values n).isSome := by
  obtain ⟨p, hp, rfl⟩ := List.mem_map.1 h
  have hne : values.filter (·.1 == p.1) ≠ [] := List.ne_nil_of_mem (List.mem_filter.2 ⟨hp, by simp⟩)
  simp only [lastValue, List.getLast?_eq_some_getLast hne, Option.map_some, Option.isSome_some]

theorem mem_newNames {w : AsciiWave} {values : List (String × Bool)} {n : String} :
    n ∈ newNames w values ↔ n ∈ values.map (·.1) ∧ w.contains n = false := by
  simp [newNames, List.mem_eraseDups]

theorem newNames_append_singleton (w : AsciiWave) (values : List (String × Bool)) (m : String)
    (v : Bool) : newNames w (values ++ [(m, v)]) =
      if w.contains m = false ∧ m ∉ newNames w values then newNames w values ++ [m]
      else newNames w values := by
  unfold newNames
  rw [List.map_append, List.filter_append]
  cases hc : w.contains m
  · rw [show ([(m, v)].map (·.1)).filter (fun n => !w.contains n) = [m] by simp [hc],
      PinTable.eraseDups_append_singleton]
    by_cases hm : m ∈ (values.map (·.1)).filter fun n => !w.contains n <;>
      simp [hm, List.mem_eraseDups]
  · simp [hc]

/-- What the settings of one event make of a held wave before the last hold: the wave's strings,
then the new names low for the earlier events, each with the last level given to its name. -/
def settled (w : AsciiWave) (values : List (String × Bool)) : AsciiWave :=
  ⟨(w.signals ++ (newNames w values).map (·, List.replicate w.length false)).map fun p =>
    (p.1, p.2 ++ (lastValue values p.1).toList)⟩

theorem settled_nil (w : AsciiWave) : settled w [] = w := by
  apply eq_of_signals
  simp [settled, lastValue_nil, newNames]

section Settled

variable {w : AsciiWave} (hnd : w.names.Nodup) (hw : ∀ p ∈ w.signals, p.2.length = w.length)
  (values : List (String × Bool))

include hw in
/-- Before the event, the wave's strings and the new names' low strings all have its length. -/
theorem length_of_mem_base {q : String × List Bool}
    (hq : q ∈ w.signals ++ (newNames w values).map (·, List.replicate w.length false)) :
    q.2.length = w.length := by
  rcases List.mem_append.1 hq with hq | hq
  · exact hw q hq
  · obtain ⟨n, -, rfl⟩ := List.mem_map.1 hq
    simp

theorem names_settled : (settled w values).names = w.names ++ newNames w values := by
  simp [settled, names, Function.comp_def]

include hnd in
theorem nodup_settled : (settled w values).names.Nodup := by
  rw [names_settled]
  refine hnd.append (PinTable.nodup_eraseDups _) fun n hn hn' => ?_
  rw [mem_newNames, ← Bool.not_eq_true, contains_iff] at hn'
  exact hn'.2 hn

theorem contains_settled (n : String) :
    (settled w values).contains n = (w.contains n || decide (n ∈ newNames w values)) := by
  rw [Bool.eq_iff_iff, contains_iff, names_settled, Bool.or_eq_true, contains_iff]
  simp

include hw in
theorem le_length_settled : w.length ≤ (settled w values).length := by
  cases hs : w.signals with
  | nil => simp [length, hs]
  | cons p rest =>
    have hp : p ∈ w.signals := hs ▸ List.mem_cons_self
    have hq : (p.1, p.2 ++ (lastValue values p.1).toList) ∈ (settled w values).signals :=
      List.mem_map.2 ⟨p, List.mem_append_left _ hp, rfl⟩
    calc w.length = p.2.length := (hw p hp).symm
      _ ≤ (p.2 ++ (lastValue values p.1).toList).length := by simp
      _ ≤ (settled w values).length := le_length hq

include hnd hw in
/-- One more setting: the string of its name ends in its level, a new name is added once. -/
theorem settled_append_singleton (m : String) (v : Bool) :
    (settled w values).modify m (fun b => b.take w.length ++ [v]) =
      settled w (values ++ [(m, v)]) := by
  apply eq_of_signals
  have hentry : ∀ q ∈ w.signals ++ (newNames w values).map (·, List.replicate w.length false),
      ((fun p : String × List Bool => if p.1 = m then (m, p.2.take w.length ++ [v]) else p) ∘
        fun p => (p.1, p.2 ++ (lastValue values p.1).toList)) q =
      (q.1, q.2 ++ (lastValue (values ++ [(m, v)]) q.1).toList) := by
    intro q hq
    rw [lastValue_append_singleton]
    by_cases hqm : q.1 = m
    · -- the base string has the wave's length, so cutting it there drops the old level
      simp [hqm, List.take_left' (length_of_mem_base hw values hq)]
    · simp [hqm, Ne.symm hqm]
  rw [signals_modify (nodup_settled hnd values), contains_settled, List.take_replicate,
    Nat.min_eq_left (le_length_settled hw values)]
  simp only [settled]
  rw [List.map_map, List.map_congr_left hentry, newNames_append_singleton]
  by_cases hnew : w.contains m = false ∧ m ∉ newNames w values
  · -- a name new to the wave and to the event so far goes last, low before its level
    simp [hnew, lastValue_append_singleton]
  · rw [if_neg hnew, if_pos]
    · simp
    · cases hc : w.contains m
      · simpa [hc] using hnew
      · rfl

include hnd hw in
theorem foldl_set_eq_settled :
    values.foldl (fun x (p : String × Bool) => x.modify p.1 fun b => b.take w.length ++ [p.2]) w =
      settled w values := by
  induction values using List.reverseRecOn with
  | nil => exact (settled_nil w).symm
  | append_singleton values p ih =>
    rw [List.foldl_append, ih, List.foldl_cons, List.foldl_nil]
    exact settled_append_singleton hnd hw values p.1 p.2

include hw in
/-- An event that sets something is one event longer than the held wave. -/
theorem length_settled (hv : values ≠ []) : (settled w values).length = w.length + 1 := by
  have hle : ∀ p ∈ (settled w values).signals, p.2.length ≤ w.length + 1 := by
    intro p hp
    obtain ⟨q, hq, rfl⟩ := List.mem_map.1 hp
    cases lastValue values q.1 <;> simp [length_of_mem_base hw values hq]
  -- a name set in the event is in the base, and its string gains a level
  obtain ⟨⟨m, v⟩, hm⟩ := List.exists_mem_of_ne_nil values hv
  have hmv : m ∈ values.map (·.1) := List.mem_map_of_mem hm
  have hmbase : m ∈ (w.signals ++ (newNames w values).map (·, List.replicate w.length false)).map
      (·.1) := by
    have : m ∈ w.names ++ newNames w values := by
      cases hc : w.contains m
      · exact List.mem_append_right _ (mem_newNames.2 ⟨hmv, hc⟩)
      · exact List.mem_append_left _ (contains_iff.1 hc)
    simpa [names, Function.comp_def] using this
  obtain ⟨q, hq, rfl⟩ := List.mem_map.1 hmbase
  obtain ⟨x, hx⟩ := Option.isSome_iff_exists.1 (isSome_lastValue hmv)
  refine length_eq_of_mem hle (List.mem_map.2 ⟨q, hq, rfl⟩) ?_
  simp [hx, length_of_mem_base hw values hq]

end Settled

/-- Holding levels of one length with at most one more to one event more: the level given, or the
last one again. -/
theorem holdTo_succ_append_toList {b : List Bool} {len : Nat} (hb : b.length = len)
    (o : Option Bool) : holdTo (len + 1) (b ++ o.toList) = b ++ [o.getD (b.getLast?.getD false)] := by
  cases o with
  | none => simp [holdTo_succ hb.le, holdTo_of_length_eq hb]
  | some x => exact holdTo_of_length_eq (by simp [hb])

/-- One event setting several signals of a wave with distinct names: each signal is held, then
given the last level set for it, or its own last level if none; the names first set here follow
in order, low for every earlier event. -/
theorem signals_setSignals {a : AsciiWave} (hnd : a.names.Nodup) {values : List (String × Bool)}
    (hv : values ≠ []) :
    (a.setSignals values).signals =
      a.signals.map (fun p => (p.1, holdTo a.length p.2 ++
          [(lastValue values p.1).getD ((holdTo a.length p.2).getLast?.getD false)])) ++
        (newNames a values).map fun n =>
          (n, List.replicate a.length false ++ [(lastValue values n).getD false]) := by
  have hW : ∀ p ∈ a.holdAll.signals, p.2.length = a.holdAll.length :=
    fun p hp => length_of_mem_holdAll hp
  have hset : a.setSignals values = (settled a.holdAll values).holdAll :=
    congrArg holdAll (foldl_set_eq_settled (nodup_holdAll hnd) hW values)
  have hnew : newNames a.holdAll values = newNames a values := by
    simp only [newNames, contains_holdAll]
  rw [hset, signals_holdAll, length_settled hW values hv, length_holdAll]
  simp only [settled, List.map_map, List.map_append, signals_holdAll, length_holdAll, hnew]
  congr 1
  · refine List.map_congr_left fun p hp => ?_
    simp [holdTo_succ_append_toList (length_holdTo _ _ (le_length hp))]
  · refine List.map_congr_left fun n hn => ?_
    simp [holdTo_succ_append_toList (List.length_replicate ..), getLast?_replicate_false]

/-- An event that sets nothing only holds every signal. -/
theorem signals_setSignals_nil (a : AsciiWave) :
    (a.setSignals []).signals = a.signals.map fun p => (p.1, holdTo a.length p.2) := by
  have hheld : a.holdAll.holdAll = a.holdAll :=
    holdAll_of_forall fun p hp => length_of_mem_holdAll hp
  rw [setSignals, List.foldl_nil, hheld, signals_holdAll]

/-! ## Exact edits -/

/-- What each edit makes of a wave with `L = a.length` events: setting signals in one event holds
each signal to `L` and gives it the last level set for it, or its own last level, then appends the
names first set, low for `L` events; setting none only holds; setting one signal sets a list of
one; a pulse or appended levels hold their signal to `L` and write after it, and hold every other
signal to the new length. -/
structure ExactEdits (a : AsciiWave) : Prop where
  setSignals : ∀ values : List (String × Bool), values ≠ [] →
    (a.setSignals values).signals =
      a.signals.map (fun p => (p.1, holdTo a.length p.2 ++
          [(lastValue values p.1).getD ((holdTo a.length p.2).getLast?.getD false)])) ++
        (newNames a values).map fun n =>
          (n, List.replicate a.length false ++ [(lastValue values n).getD false])
  setSignals_nil : (a.setSignals []).signals = a.signals.map fun p => (p.1, holdTo a.length p.2)
  setSignal : ∀ (n : String) (v : Bool), a.setSignal n v = a.setSignals [(n, v)]
  pulse : ∀ (n : String) (width : Nat), (a.pulse n width).signals =
    a.signals.map (fun p => (p.1, if p.1 = n then
        holdTo a.length p.2 ++ List.replicate width (!(holdTo a.length p.2).getLast?.getD false) ++
          [(holdTo a.length p.2).getLast?.getD false]
      else holdTo (a.length + width + 1) p.2)) ++
      (if a.contains n then [] else
        [(n, List.replicate a.length false ++ List.replicate width true ++ [false])])
  append : ∀ (n : String) (bits : List Bool), (a.append n bits).signals =
    a.signals.map (fun p => (p.1, if p.1 = n then holdTo a.length p.2 ++ bits
      else holdTo (a.length + bits.length) p.2)) ++
      (if a.contains n then [] else [(n, List.replicate a.length false ++ bits)])

/-- The edits of every reachable wave are exact. -/
theorem Reachable.edits_exact {a : AsciiWave} (ha : a.Reachable) : a.ExactEdits where
  setSignals _ hv := signals_setSignals ha.nodup hv
  setSignals_nil := signals_setSignals_nil a
  setSignal _ _ := rfl
  pulse := signals_pulse ha.nodup
  append := signals_append ha.nodup

/-- Three signals started low, then one set high: its edits are exact. -/
theorem edits_exact_sample :
    ((init ["clk", "data", "rst"] false).setSignal "rst" true).Reachable ∧
      ((init ["clk", "data", "rst"] false).setSignal "rst" true).ExactEdits :=
  have ha := Reachable.setSignals [("rst", true)] (Reachable.init ["clk", "data", "rst"] false)
  ⟨ha, Reachable.edits_exact ha⟩

example : (((((init ["clk", "data", "rst"] false).setSignal "rst" true).setSignals
    [("clk", true), ("data", true)]).pulse "rst" 2).append "data" [false, true, false, true]).signals =
    [("clk", [false, false, true, true, true, true, true, true, true, true]),
     ("data", [false, false, true, true, true, true, false, true, false, true]),
     ("rst", [false, true, true, false, false, true, true, true, true, true])] := by
  decide

end PinWave.AsciiWave
