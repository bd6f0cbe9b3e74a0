import PinWave.Proofs.Dump.Record
import Mathlib.Tactic.Set
/-!
# The signals of a dump

A header declares variables inside nested scopes. Each gives one-bit signals: a variable of width
one is one signal named by its scope path and reference joined by dots, and a wider variable of
width `n` gives the signals `name[n-1]` down to `name[0]`, signal `name[i]` holding bit `i`
counted from the least significant one (`itemSignals`).

Collecting the header into a layout names these signals in order and sends the levels of every
identifier code to the signals of the variables with that code (`Layout.Holds.addItems`). A
vector change is laid out from its most significant level down, so bit `i` of a variable of
width `n` sits at offset `n - 1 - i`; on a value no wider than the variable this is the value's
byte `i` counted from its end (`levelOf_target`).

Putting this together with the recording of changes, every signal of a read header and its
changes, whose ticks do not decrease and whose signal names differ, has a history with strictly
increasing ticks, whose level at a tick is bit `i` of the last value given to its code at or
before that tick (`Trace.ofParsed_histories`). Reading a dump text is the dump library's two
passes and then this construction (`Trace.ofText_eq`), so the same holds of every text the
library reads (`Trace.ofText_histories`), whatever library it is.

## Main definitions
* `Dump.BitSignal`, `Dump.itemSignals`: the one-bit signals a header declares.
* `Dump.Layout.Holds`: a layout that names the signals and sends each code's levels to them.
* `Dump.lastValue`, `Dump.valueBit`: the last value of a code at a tick, and one bit of a value.

## Main statements
* `Dump.Layout.Holds.addItems`: collecting a header's variables.
* `Dump.Layout.Holds.foldl_apply`: the history of every signal after reading changes.
* `Dump.Trace.ofParsed_histories`, `Dump.Trace.ofText_histories`: the trace of a dump.
-/

namespace PinWave.Dump

/-- One bit of a declared variable: the signal's name, the variable's identifier code and width,
and the bit's position counted from the least significant one. -/
structure BitSignal where
  name : String
  code : Nat
  width : Nat
  bit : Nat

/-- Bit `i` of a variable of width `size`, named `name[i]`. -/
def bitSignal (name : String) (size code i : Nat) : BitSignal :=
  ⟨name ++ "[" ++ toString i ++ "]", code, size, i⟩

/-- The signals of a variable: one of its own name when it is one bit wide, else one for each
bit from the most significant down. -/
def varSignals (name : String) (size code : Nat) : List BitSignal :=
  if size = 1 then [⟨name, code, 1, 0⟩] else (List.range size).reverse.map (bitSignal name size code)

/-- The signals of header entries under the scope path `path`, in order; a variable's name is its
scope path and reference joined by dots. -/
def itemSignals (path : List String) : List Item → List BitSignal
  | [] => []
  | .var size code ref :: rest =>
    varSignals (".".intercalate (path ++ [ref])) size code ++ itemSignals path rest
  | .scope name children :: rest => itemSignals (path ++ [name]) children ++ itemSignals path rest
  | .other :: rest => itemSignals path rest

example : (itemSignals [] [.scope "top" [.var 1 0 "a", .var 2 2 "v"]]).map (·.name) =
    ["top.a", "top.v[1]", "top.v[0]"] := by
  cbv

theorem bit_lt_width_of_mem_varSignals {name : String} {size code : Nat} {s : BitSignal}
    (hs : s ∈ varSignals name size code) : s.bit < s.width := by
  unfold varSignals at hs
  split at hs
  · rw [List.mem_singleton.1 hs]
    exact Nat.zero_lt_one
  · obtain ⟨i, hi, rfl⟩ := List.mem_map.1 hs
    simpa [bitSignal] using hi

/-- Every declared signal's bit lies within its variable's width. -/
theorem bit_lt_width_of_mem_itemSignals {path : List String} {items : List Item} {s : BitSignal}
    (hs : s ∈ itemSignals path items) : s.bit < s.width := by
  fun_induction itemSignals path items with
  | case1 path => cases hs
  | case2 path size code ref rest ih =>
    rcases List.mem_append.1 hs with hs | hs
    · exact bit_lt_width_of_mem_varSignals hs
    · exact ih hs
  | case3 path name children rest ih₁ ih₂ =>
    rcases List.mem_append.1 hs with hs | hs
    · exact ih₁ hs
    · exact ih₂ hs
  | case4 path rest ih => exact ih hs

/-- Where the levels of a signal at index `j` come from: bit `bit` of a variable of width `width`
lies at offset `width - 1 - bit` from the most significant one. -/
def BitSignal.target (s : BitSignal) (j : Nat) : Target := ⟨j, s.width - 1 - s.bit, s.width⟩

namespace Layout

/-- A layout holds the signals `sigs`: it names them in order, and the targets of an identifier
code at signal `j` are the target of `sigs[j]` when that signal's variable has the code, and
none otherwise. -/
structure Holds (l : Layout) (sigs : List BitSignal) : Prop where
  names : l.names.toList = sigs.map (·.name)
  targets : ∀ code j, (targetsFor l.targets code).filter (·.signal = j) =
    ((sigs[j]?.filter (·.code = code)).map (·.target j)).toList

theorem Holds.size {l : Layout} {sigs : List BitSignal} (hl : l.Holds sigs) :
    l.names.size = sigs.length := by
  rw [← Array.length_toList, hl.names, List.length_map]

/-- A name new to the signals is new to the layout. -/
theorem Holds.not_mem {l : Layout} {sigs : List BitSignal} (hl : l.Holds sigs) {name : String}
    (h : name ∉ sigs.map (·.name)) : name ∉ l.names := by
  rwa [← Array.mem_toList_iff, hl.names]

theorem holds_empty : Holds ⟨#[], []⟩ [] :=
  ⟨rfl, fun _ _ => rfl⟩

@[simp] theorem names_addTarget (l : Layout) (code : Nat) (t : Target) :
    (l.addTarget code t).names = l.names := by
  unfold addTarget
  split <;> rfl

/-- Adding a target to a code appends it to the code's targets and leaves other codes alone. -/
theorem targetsFor_addTarget (l : Layout) (code : Nat) (t : Target) (c : Nat) :
    targetsFor (l.addTarget code t).targets c =
      if c = code then targetsFor l.targets c ++ [t] else targetsFor l.targets c := by
  unfold addTarget targetsFor
  split
  · -- the code has an entry already: every entry of the code gets `t`, and the lookup finds the
    -- first of them
    rename_i hany
    have hp : ((fun e : Nat × List Target => e.1 == c) ∘
        fun e => if e.1 == code then (e.1, e.2 ++ [t]) else e) = (·.1 == c) := by
      funext e
      simp only [Function.comp_apply]
      split <;> rfl
    dsimp only
    rw [List.find?_map, hp]
    cases hfind : l.targets.find? (·.1 == c) with
    | none =>
      have hc : c ≠ code := by
        rintro rfl
        obtain ⟨e, he, hec⟩ := List.any_eq_true.1 hany
        exact absurd hec (by simpa using List.find?_eq_none.1 hfind e he)
      simp [hc]
    | some e =>
      have he : e.1 = c := by simpa using List.find?_some hfind
      by_cases hc : c = code <;> simp [he, hc]
  · -- a new entry for the code goes last
    rename_i hany
    dsimp only
    rw [List.find?_append]
    by_cases hc : c = code
    · subst hc
      have hnone : l.targets.find? (·.1 == c) = none :=
        List.find?_eq_none.2 fun e he hec => hany (List.any_eq_true.2 ⟨e, he, hec⟩)
      simp [hnone]
    · simp [hc, Ne.symm hc]

theorem indexOf_of_not_mem {l : Layout} {name : String} (h : name ∉ l.names) :
    l.indexOf name = ({ l with names := l.names.push name }, l.names.size) := by
  simp [indexOf, Array.idxOf?_eq_none_iff.2 h]

/-- Naming one more signal and adding its target at its index keeps the layout holding the
signals, the new one last. -/
theorem Holds.push {l : Layout} {sigs : List BitSignal} (hl : l.Holds sigs) (s : BitSignal) :
    ({ l with names := l.names.push s.name }.addTarget s.code (s.target l.names.size)).Holds
      (sigs ++ [s]) := by
  constructor
  · rw [names_addTarget]
    simp [hl.names]
  · intro c j
    rw [targetsFor_addTarget, hl.size]
    dsimp only
    have hold := hl.targets c j
    by_cases hj : j = sigs.length
    · -- the new signal: its code had no target there before
      subst hj
      rw [List.getElem?_eq_none (Nat.le_refl _), Option.filter_none, Option.map_none,
        Option.toList_none] at hold
      by_cases hc : c = s.code
      · subst hc
        simp [List.filter_append, hold, BitSignal.target, Option.filter_some]
      · simp [hc, Ne.symm hc, hold, Option.filter_some]
    · -- an old signal: the new target is elsewhere
      have hget : (sigs ++ [s])[j]? = sigs[j]? := by
        grind
      rw [hget, ← hold]
      split <;> simp [List.filter_append, BitSignal.target, Ne.symm hj]

/-- In a list of signals of distinct names, each name is new to the signals before it. -/
theorem not_mem_of_nodup_append {sigs rest : List BitSignal} {s : BitSignal}
    (h : ((sigs ++ s :: rest).map (·.name)).Nodup) : s.name ∉ sigs.map (·.name) := by
  rw [List.map_append, List.nodup_append] at h
  exact fun hm => h.2.2 _ hm _ List.mem_cons_self rfl

/-- Collecting the bits of a vector variable of width `size`: step `b` names bit
`size - 1 - b` and sends the variable's levels at offset `b` to it. -/
theorem Holds.foldl_bits {name : String} {size code : Nat} :
    ∀ (bs : List Nat) {l : Layout} {sigs : List BitSignal}, l.Holds sigs → (∀ b ∈ bs, b < size) →
      ((sigs ++ bs.map (bitSignal name size code <| size - 1 - ·)).map (·.name)).Nodup →
      (bs.foldl (fun l b =>
          let (l, i) := l.indexOf (name ++ "[" ++ toString (size - 1 - b) ++ "]")
          l.addTarget code ⟨i, b, size⟩) l).Holds
        (sigs ++ bs.map (bitSignal name size code <| size - 1 - ·))
  | [], _, _, hl, _, _ => by simpa using hl
  | b :: bs, l, sigs, hl, hbs, hnd => by
    have hb : b < size := hbs b List.mem_cons_self
    rw [List.map_cons] at hnd ⊢
    have hfresh : name ++ "[" ++ toString (size - 1 - b) ++ "]" ∉ l.names :=
      hl.not_mem (not_mem_of_nodup_append hnd)
    rw [List.append_cons] at hnd ⊢
    rw [List.foldl_cons]
    dsimp only
    rw [indexOf_of_not_mem hfresh]
    dsimp only
    -- the bit named at this step lies at offset `b`
    have hstep := hl.push (bitSignal name size code (size - 1 - b))
    rw [show (bitSignal name size code (size - 1 - b)).target l.names.size =
      ⟨l.names.size, b, size⟩ by simp only [BitSignal.target, bitSignal]; congr 1; omega] at hstep
    exact foldl_bits bs hstep (fun b' hb' => hbs b' (List.mem_cons_of_mem _ hb')) hnd

/-- Collecting a variable of distinct signal names adds its signals. -/
theorem Holds.addVar {l : Layout} {sigs : List BitSignal} (hl : l.Holds sigs) {name : String}
    {size code : Nat} (hnd : ((sigs ++ varSignals name size code).map (·.name)).Nodup) :
    (l.addVar name size code).Holds (sigs ++ varSignals name size code) := by
  unfold Layout.addVar
  unfold varSignals at hnd ⊢
  split <;> rename_i hsize
  · -- a one-bit variable
    rw [if_pos hsize] at hnd
    rw [indexOf_of_not_mem (hl.not_mem (not_mem_of_nodup_append hnd))]
    exact hl.push ⟨name, code, 1, 0⟩
  · rw [if_neg hsize] at hnd
    -- the loop runs through the bits from the most significant one down
    have hbits : (List.range size).reverse.map (bitSignal name size code) =
        (List.range size).map (bitSignal name size code <| size - 1 - ·) := by
      rw [show (List.range size).reverse = (List.range' 0 size).reverse by
        rw [List.range_eq_range'], List.reverse_range', List.map_map]
      congr 1
      funext b
      simp only [Function.comp_apply, Nat.zero_add]
    rw [hbits] at hnd ⊢
    exact foldl_bits _ hl (fun b hb => List.mem_range.1 hb) hnd

/-- The signals before others of distinct names have distinct names. -/
theorem nodup_of_nodup_append {sigs rest : List BitSignal}
    (h : ((sigs ++ rest).map (·.name)).Nodup) : (sigs.map (·.name)).Nodup := by
  rw [List.map_append, List.nodup_append] at h
  exact h.1

/-- Collecting header entries whose signals have distinct names adds their signals in order. -/
theorem Holds.addItems {l : Layout} {sigs : List BitSignal} (hl : l.Holds sigs)
    {path : List String} {items : List Item}
    (hnd : ((sigs ++ itemSignals path items).map (·.name)).Nodup) :
    (l.addItems path items).Holds (sigs ++ itemSignals path items) := by
  fun_induction Layout.addItems l path items generalizing sigs with
  | case1 l path => simpa [itemSignals] using hl
  | case2 l path size code ref rest ih =>
    rw [itemSignals, ← List.append_assoc] at hnd ⊢
    exact ih (hl.addVar (nodup_of_nodup_append hnd)) hnd
  | case3 l path name children rest ih₁ ih₂ =>
    rw [itemSignals, ← List.append_assoc] at hnd ⊢
    exact ih₂ (ih₁ hl (nodup_of_nodup_append hnd)) hnd
  | case4 l path rest ih =>
    rw [itemSignals] at hnd ⊢
    exact ih hl hnd

/-- The changes a signal's history receives are the changes of its variable's code, each read at
the signal's bit. -/
theorem Holds.signalEvents {l : Layout} {sigs : List BitSignal} (hl : l.Holds sigs) {j : Nat}
    {s : BitSignal} (hj : sigs[j]? = some s) (timed : List (Nat × Nat × List UInt8)) :
    signalEvents l.targets j timed =
      (timed.filter (·.2.1 = s.code)).map fun e => (e.1, levelOf e.2.2 (s.target j)) := by
  induction timed with
  | nil => rfl
  | cons e es ih =>
    simp only [Dump.signalEvents] at ih ⊢
    rw [List.flatMap_cons, ih, hl.targets, hj, List.filter_cons]
    by_cases hc : e.2.1 = s.code
    · simp [hc, Option.filter_some]
    · simp [hc, Ne.symm hc, Option.filter_some]

end Layout

/-- Bit `i` of a value, counted from its last byte: high when that byte is `1`. A value shorter
than `i + 1` bytes reads as extended with `0` on the left, so the bit is low. -/
def valueBit (bytes : List UInt8) (i : Nat) : Bool := bytes.reverse[i]? == some 49

/-- A signal's bit, read at its offset from the most significant end of a value no wider than its
variable, is the value's bit counted from the least significant end. -/
theorem levelOf_target {s : BitSignal} (hs : s.bit < s.width) {bytes : List UInt8}
    (hlen : bytes.length ≤ s.width) (j : Nat) : levelOf bytes (s.target j) = valueBit bytes s.bit := by
  unfold levelOf valueBit BitSignal.target
  dsimp only
  by_cases hi : s.bit < bytes.length
  · have hge : s.width - 1 - s.bit ≥ s.width - bytes.length := by omega
    have hidx : s.width - 1 - s.bit - (s.width - bytes.length) = bytes.length - 1 - s.bit := by
      omega
    rw [List.getElem?_reverse hi, hidx]
    simp [hge]
  · have hlt : ¬ s.width - 1 - s.bit ≥ s.width - bytes.length := by omega
    have hnone : bytes.reverse[s.bit]? = none :=
      List.getElem?_eq_none (by simpa using Nat.le_of_not_lt hi)
    simp [hlt, hnone]

/-- The value of the last change to an identifier code at or before a tick; changes before the
first tick count at tick 0. -/
def lastValue (changes : List Change) (code t : Nat) : Option (List UInt8) :=
  ((Change.timed 0 changes).filter fun e => e.2.1 = code ∧ e.1 ≤ t).getLast?.map (·.2.2)

/-- The level at a tick of the changes of one code is read off the last of them at or before it. -/
theorem lastLevel_filter_map (timed : List (Nat × Nat × List UInt8)) (code t : Nat)
    (f : List UInt8 → Bool) :
    History.lastLevel ((timed.filter (·.2.1 = code)).map fun e => (e.1, f e.2.2)) t =
      ((((timed.filter fun e => e.2.1 = code ∧ e.1 ≤ t).getLast?).map (·.2.2)).map f).getD false := by
  simp [History.lastLevel, List.filter_map, List.filter_filter, List.getLast?_map, Option.map_map,
    Function.comp_def, Bool.and_comm]

/-- In a list of distinct keys, looking up the key of an entry finds that entry. -/
theorem find?_fst_of_nodup {α : Type} :
    ∀ {l : List (String × α)} {p : String × α}, (l.map (·.1)).Nodup → p ∈ l →
      l.find? (·.1 == p.1) = some p
  | q :: rest, p, hnd, hp => by
    rw [List.map_cons, List.nodup_cons] at hnd
    rcases List.mem_cons.1 hp with rfl | hp
    · simp
    · have hne : q.1 ≠ p.1 := fun he => hnd.1 (he ▸ List.mem_map_of_mem hp)
      rw [List.find?_cons_of_neg (by simpa using hne)]
      exact find?_fst_of_nodup hnd.2 hp

namespace Layout

section Reading

variable {l : Layout} {sigs : List BitSignal} {j : Nat} {s : BitSignal}

/-- The level that signal `j`'s changes give at a tick is its bit of the last value of its code
at or before the tick, for a value no wider than its variable. -/
theorem Holds.lastLevel_signalEvents (hl : l.Holds sigs) (hj : sigs[j]? = some s)
    (hbit : s.bit < s.width) {changes : List Change} {t : Nat}
    (hw : ∀ v ∈ lastValue changes s.code t, v.length ≤ s.width) :
    History.lastLevel (Dump.signalEvents l.targets j (Change.timed 0 changes)) t =
      ((lastValue changes s.code t).map fun v => valueBit v s.bit).getD false := by
  rw [hl.signalEvents hj, lastLevel_filter_map _ _ _ fun v => levelOf v (s.target j),
    lastValue, Option.map_map]
  cases hlast : ((Change.timed 0 changes).filter fun e => e.2.1 = s.code ∧ e.1 ≤ t).getLast? with
  | none => rfl
  | some e =>
    have hwidth := hw e.2.2 (by rw [lastValue, hlast]; rfl)
    simp only [Option.map_some, Option.getD_some, Function.comp_apply]
    exact levelOf_target hbit hwidth j

/-- Reading changes whose ticks do not decrease into fresh histories of a layout that holds the
signals gives signal `j` a history with strictly increasing ticks, whose level at a tick is its
bit of the last value of its code at or before the tick. -/
theorem Holds.foldl_apply (hl : l.Holds sigs) {changes : List Change}
    (hticks : (Change.ticks changes).Pairwise (· ≤ ·)) (hj : sigs[j]? = some s)
    (hbit : s.bit < s.width) :
    ∃ h, (changes.foldl (Reading.apply l.targets)
        ⟨Array.replicate l.names.size History.empty, none, none⟩).histories[j]? = some h ∧
      h.StrictlySorted ∧
      ∀ t, (∀ v ∈ lastValue changes s.code t, v.length ≤ s.width) →
        h.levelAt t = ((lastValue changes s.code t).map fun v => valueBit v s.bit).getD false := by
  have hjlt : j < l.names.size := by
    rw [hl.size]
    exact (List.getElem?_eq_some_iff.1 hj).1
  -- signal `j` records the changes of its code, in tick order
  have hsorted := Dump.signalEvents_sorted l.targets j
    (Change.timed_sorted changes 0 (fun _ _ => Nat.zero_le _) hticks).1
  obtain ⟨hss, hlevel⟩ := History.foldl_record_empty hsorted
  refine ⟨_, ?_, hss, fun t hw => by rw [hlevel, hl.lastLevel_signalEvents hj hbit hw]⟩
  rw [histories_foldl_apply, Array.getElem?_replicate, if_pos hjlt]
  rfl

end Reading

end Layout


/-- The trace of a read header and its changes, when its ticks do not decrease and its signals
have distinct names: it runs from the first tick given to the last (0 when there is none) and
names the header's signals in order. Every signal has a history with strictly increasing ticks,
whose level at a tick is low when its variable's code has no change at or before it, and else
bit `i` of the last such value, counted from the least significant byte, for a value no wider
than the variable. -/
theorem Trace.ofParsed_histories {header : Header} {changes : List Change}
    (hticks : (Change.ticks changes).Pairwise (· ≤ ·))
    (hnd : ((itemSignals [] header.items).map (·.name)).Nodup) :
    (Trace.ofParsed header changes).start = (Change.ticks changes).head?.getD 0 ∧
      (Trace.ofParsed header changes).finish = (Change.ticks changes).getLast?.getD 0 ∧
      (Trace.ofParsed header changes).signals.map (·.1) = (itemSignals [] header.items).map (·.name) ∧
      ∀ s ∈ itemSignals [] header.items, ∃ h, (Trace.ofParsed header changes).history? s.name = some h ∧
        h.StrictlySorted ∧ ∀ t, (∀ v ∈ lastValue changes s.code t, v.length ≤ s.width) →
          h.levelAt t = ((lastValue changes s.code t).map fun v => valueBit v s.bit).getD false := by
  -- the layout collected from the header holds its signals
  have hl : (Layout.addItems ⟨#[], []⟩ [] header.items).Holds (itemSignals [] header.items) := by
    simpa using Layout.holds_empty.addItems (by simpa using hnd)
  set layout := Layout.addItems ⟨#[], []⟩ [] header.items
  set r := changes.foldl (Reading.apply layout.targets)
    ⟨Array.replicate layout.names.size History.empty, none, none⟩ with hr
  have hsignals : (Trace.ofParsed header changes).signals =
      layout.names.toList.zip r.histories.toList := rfl
  obtain ⟨hfirst, hcurrent⟩ := first_foldl_apply layout.targets changes
    ⟨Array.replicate layout.names.size History.empty, none, none⟩
  have hsize : r.histories.size = layout.names.size := by
    rw [size_foldl_apply, Array.size_replicate]
  -- one history for each signal, named as the signal
  have hnames : (layout.names.toList.zip r.histories.toList).map (·.1) =
      (itemSignals [] header.items).map (·.name) := by
    rw [List.map_fst_zip (by simp [hsize]), hl.names]
  refine ⟨by rw [Trace.ofParsed, ← hr, hfirst]; rfl, ?_, by rw [hsignals, hnames], ?_⟩
  · rw [Trace.ofParsed, ← hr, hcurrent]
    cases (Change.ticks changes).getLast? <;> rfl
  · intro s hs
    obtain ⟨j, hj⟩ := List.mem_iff_getElem?.1 hs
    obtain ⟨h, hhist, hss, hlevel⟩ := hl.foldl_apply hticks hj (bit_lt_width_of_mem_itemSignals hs)
    refine ⟨h, ?_, hss, hlevel⟩
    -- the signal's name finds its history among distinct names
    have hmem : (s.name, h) ∈ layout.names.toList.zip r.histories.toList := by
      refine List.mem_iff_getElem?.2 ⟨j, List.getElem?_zip_eq_some.2 ⟨?_, ?_⟩⟩
      · rw [hl.names, List.getElem?_map, hj]
        rfl
      · rw [Array.getElem?_toList]
        exact hhist
    have hkeys : ((layout.names.toList.zip r.histories.toList).map (·.1)).Nodup := by
      rw [hnames]
      exact hnd
    simp only [Trace.history?, hsignals, find?_fst_of_nodup hkeys hmem, Option.map_some]

/-- A text the reader reads is the trace of what it reads. -/
theorem Trace.ofText_eq {reader : Reader} {text : String} {header : Header}
    {changes : List Change} (hr : reader.Reads text header changes) :
    Trace.ofText reader text = .ok (Trace.ofParsed header changes) := by
  simp only [Trace.ofText, hr.header_eq, hr.changes_eq]
  rfl

/-- The trace of a dump whose header and changes the dump library reads, when its ticks do not
decrease and its signals have distinct names: it runs from the first tick given to the last (0
when there is none) and names the header's signals in order. Every signal has a history with
strictly increasing ticks, whose level at a tick is low when its variable's code has no change at
or before it, and else bit `i` of the last such value, counted from the least significant byte,
for a value no wider than the variable. -/
theorem Trace.ofText_histories {reader : Reader} {text : String} {header : Header}
    {changes : List Change} (hr : reader.Reads text header changes)
    (hticks : (Change.ticks changes).Pairwise (· ≤ ·))
    (hnd : ((itemSignals [] header.items).map (·.name)).Nodup) :
    ∃ tr, Trace.ofText reader text = .ok tr ∧
      tr.start = (Change.ticks changes).head?.getD 0 ∧
      tr.finish = (Change.ticks changes).getLast?.getD 0 ∧
      tr.signals.map (·.1) = (itemSignals [] header.items).map (·.name) ∧
      ∀ s ∈ itemSignals [] header.items, ∃ h, tr.history? s.name = some h ∧ h.StrictlySorted ∧
        ∀ t, (∀ v ∈ lastValue changes s.code t, v.length ≤ s.width) →
          h.levelAt t = ((lastValue changes s.code t).map fun v => valueBit v s.bit).getD false :=
  ⟨_, Trace.ofText_eq hr, Trace.ofParsed_histories hticks hnd⟩

/-- A dump with a one-bit and a two-bit variable in the scope `top`, changed at ticks 0 and 5. -/
def sampleDump : String :=
  "$scope module top $end $var wire 1 ! a $end $var wire 2 # v $end $upscope $end " ++
    "$enddefinitions $end\n#0\n1!\nb10 #\n#5\nb1 #\n"

/-- The dump library's reading of `sampleDump`: its scope tree, and its ticks and values, the
values as the bytes of `1`, `10` and `1`. -/
def sampleReader : Reader :=
  ⟨fun _ => .ok ⟨none, [.scope "top" [.var 1 0 "a", .var 2 2 "v"]]⟩,
    fun _ => .ok [.tick 0, .levels 0 [49], .levels 2 [49, 48], .tick 5, .levels 2 [49]]⟩

theorem ofText_histories_sample :
    ∃ header changes, sampleReader.Reads sampleDump header changes ∧
      (Change.ticks changes).Pairwise (· ≤ ·) ∧ ((itemSignals [] header.items).map (·.name)).Nodup ∧
      ∃ tr, Trace.ofText sampleReader sampleDump = .ok tr ∧
        tr.start = (Change.ticks changes).head?.getD 0 ∧
        tr.finish = (Change.ticks changes).getLast?.getD 0 ∧
        tr.signals.map (·.1) = (itemSignals [] header.items).map (·.name) ∧
        ∀ s ∈ itemSignals [] header.items, ∃ h, tr.history? s.name = some h ∧ h.StrictlySorted ∧
          ∀ t, (∀ v ∈ lastValue changes s.code t, v.length ≤ s.width) →
            h.levelAt t = ((lastValue changes s.code t).map fun v => valueBit v s.bit).getD false := by
  have hr : sampleReader.Reads sampleDump ⟨none, [.scope "top" [.var 1 0 "a", .var 2 2 "v"]]⟩
      [.tick 0, .levels 0 [49], .levels 2 [49, 48], .tick 5, .levels 2 [49]] := ⟨rfl, rfl⟩
  have hticks : (Change.ticks
      [.tick 0, .levels 0 [49], .levels 2 [49, 48], .tick 5, .levels 2 [49]]).Pairwise (· ≤ ·) := by
    decide
  have hnd : ((itemSignals [] [.scope "top" [.var 1 0 "a", .var 2 2 "v"]]).map (·.name)).Nodup := by
    simp only [itemSignals, varSignals]
    decide
  exact ⟨_, _, hr, hticks, hnd, Trace.ofText_histories hr hticks hnd⟩

end PinWave.Dump
