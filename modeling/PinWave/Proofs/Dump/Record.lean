import PinWave.Proofs.Dump.History
import PinWave.Dump.Trace
/-!
# Recording the changes of a dump

Reading a dump records each value change into the histories of the signals its identifier code
targets, at the current tick. Recording a change replaces one at the same tick, skips a level
that already holds, and appends anything else; as far as levels go, each of these is appending
the change (`History.lastLevel_record`), so a history built from changes in tick order gives at
every tick the level of the last change recorded at or before it, and its ticks strictly increase
(`History.foldl_record`).

Over a whole dump, the history of signal `j` receives, in order, one change for every value change
whose code targets `j`, at the tick given last before it (`Dump.histories_foldl_apply`); the first
and last ticks given are kept beside (`Dump.first_foldl_apply`).

## Main definitions
* `History.StrictlySorted`, `History.lastLevel`.
* `Dump.Change.timed`, `Dump.Change.ticks`: the value changes with their ticks, and the ticks.
* `Dump.signalEvents`: the changes a signal's history receives.

## Main statements
* `History.foldl_record`: recording changes in tick order.
* `Dump.histories_foldl_apply`: the history of every signal after reading changes.
-/

namespace PinWave.History

/-- Changes in strictly increasing tick order. -/
def StrictlySorted (h : History) : Prop := h.changes.toList.Pairwise fun a b => a.1 < b.1

/-- The level of the last of some changes at or before a tick, or low when there is none. -/
def lastLevel (l : List (Nat × Bool)) (t : Nat) : Bool :=
  ((l.filter (·.1 ≤ t)).getLast?.map (·.2)).getD false

theorem lastLevel_append_singleton (l : List (Nat × Bool)) (tick : Nat) (v : Bool) (t : Nat) :
    lastLevel (l ++ [(tick, v)]) t = if tick ≤ t then v else lastLevel l t := by
  by_cases h : tick ≤ t <;> simp [lastLevel, List.filter_append, h]

/-- Later changes decide the level past what came before, whatever it was. -/
theorem lastLevel_append_congr {a a' : List (Nat × Bool)} (h : ∀ t, lastLevel a t = lastLevel a' t)
    (b : List (Nat × Bool)) (t : Nat) : lastLevel (a ++ b) t = lastLevel (a' ++ b) t := by
  unfold lastLevel
  rw [List.filter_append, List.filter_append, List.getLast?_append, List.getLast?_append]
  cases (b.filter (·.1 ≤ t)).getLast? with
  | none =>
    simp only [Option.none_or]
    exact h t
  | some x => rfl

/-- What recording a change does: it appends the change after one at another tick, replaces one
at the same tick, or keeps the history when the last change at another tick has its level. -/
theorem record_cases (h : History) (tick : Nat) (v : Bool) :
    ((h.record tick v).changes.toList = h.changes.toList ++ [(tick, v)] ∧
      ∀ c ∈ h.changes.toList.getLast?, c.1 ≠ tick) ∨
    (∃ init v', h.changes.toList = init ++ [(tick, v')] ∧
      (h.record tick v).changes.toList = init ++ [(tick, v)]) ∨
    (∃ init t, t ≠ tick ∧ h.changes.toList = init ++ [(t, v)] ∧ h.record tick v = h) := by
  unfold record
  rw [← Array.getLast?_toList]
  cases hl : h.changes.toList.getLast? with
  | none => simp
  | some c =>
    obtain ⟨t, v'⟩ := c
    obtain ⟨init, hinit⟩ := List.getLast?_eq_some_iff.1 hl
    dsimp only
    by_cases ht : t = tick
    · subst ht
      refine .inr (.inl ⟨init, v', hinit, ?_⟩)
      simp [Array.toList_push, Array.toList_pop, hinit]
    · by_cases hv : v' = v
      · subst hv
        exact .inr (.inr ⟨init, t, ht, hinit, by simp [ht]⟩)
      · exact .inl ⟨by simp [ht, hv], by simpa using ht⟩

section Record

variable {h : History} {tick : Nat}

/-- A recorded change is an old one or at the recorded tick. -/
theorem mem_record {c : Nat × Bool} {v : Bool} (hc : c ∈ (h.record tick v).changes.toList) :
    c ∈ h.changes.toList ∨ c.1 = tick := by
  rcases record_cases h tick v with ⟨happ, -⟩ | ⟨init, v', hh, hrec⟩ | ⟨-, -, -, -, hrec⟩
  · rw [happ, List.mem_append, List.mem_singleton] at hc
    exact hc.imp_right fun hc => by rw [hc]
  · rw [hrec, List.mem_append, List.mem_singleton] at hc
    rcases hc with hc | rfl
    · exact .inl (by rw [hh]; exact List.mem_append_left _ hc)
    · exact .inr rfl
  · rw [hrec] at hc
    exact .inl hc

theorem StrictlySorted.record (hs : h.StrictlySorted) (hle : ∀ c ∈ h.changes.toList, c.1 ≤ tick)
    (v : Bool) : (h.record tick v).StrictlySorted := by
  unfold StrictlySorted at hs ⊢
  rcases record_cases h tick v with ⟨happ, hlast⟩ | ⟨init, v', hh, hrec⟩ | ⟨-, -, -, -, hrec⟩
  · -- every change is at or before the last one, which is at an earlier tick
    have hlt : ∀ a ∈ h.changes.toList, a.1 < tick := by
      intro a ha
      obtain ⟨init, last, hsplit⟩ : ∃ init last, h.changes.toList = init ++ [last] :=
        ⟨_, _, (List.dropLast_concat_getLast (List.ne_nil_of_mem ha)).symm⟩
      have hl : last.1 < tick := Nat.lt_of_le_of_ne (hle last (by simp [hsplit]))
        (hlast last (by simp [hsplit]))
      rw [hsplit, List.mem_append, List.mem_singleton] at ha
      rw [hsplit, List.pairwise_append] at hs
      rcases ha with ha | rfl
      · exact Nat.lt_trans (hs.2.2 a ha last List.mem_cons_self) hl
      · exact hl
    rw [happ, List.pairwise_append]
    exact ⟨hs, by simp, fun a ha b hb => by rw [List.mem_singleton.1 hb]; exact hlt a ha⟩
  · rw [hh, List.pairwise_append] at hs
    rw [hrec, List.pairwise_append]
    exact ⟨hs.1, by simp, fun a ha b hb => by
      rw [List.mem_singleton.1 hb]; exact hs.2.2 a ha (tick, v') List.mem_cons_self⟩
  · rw [hrec]
    exact hs

/-- As far as levels go, recording a change at a tick no earlier than every change appends it. -/
theorem lastLevel_record (hle : ∀ c ∈ h.changes.toList, c.1 ≤ tick) (v : Bool) (t : Nat) :
    lastLevel (h.record tick v).changes.toList t = lastLevel (h.changes.toList ++ [(tick, v)]) t := by
  rcases record_cases h tick v with ⟨happ, -⟩ | ⟨init, v', hh, hrec⟩ | ⟨init, t₀, -, hh, hrec⟩
  · rw [happ]
  · -- the change at the same tick is replaced, so its level is hidden either way
    rw [hrec, hh, lastLevel_append_singleton, lastLevel_append_singleton,
      lastLevel_append_singleton]
    split <;> rfl
  · -- the level recorded holds already from an earlier tick
    have ht₀ : t₀ ≤ tick := hle (t₀, v) (by simp [hh])
    rw [hrec, lastLevel_append_singleton, hh, lastLevel_append_singleton]
    by_cases htick : tick ≤ t
    · rw [if_pos htick, if_pos (by omega)]
    · rw [if_neg htick]

end Record

/-- Recording changes in tick order, each no earlier than every change already there, keeps the
ticks strictly increasing and gives at each tick the level of the last change recorded at or
before it. -/
theorem foldl_record {events : List (Nat × Bool)} (hev : events.Pairwise fun a b => a.1 ≤ b.1) :
    ∀ {h : History}, h.StrictlySorted → (∀ c ∈ h.changes.toList, ∀ e ∈ events, c.1 ≤ e.1) →
      (events.foldl (fun h e => h.record e.1 e.2) h).StrictlySorted ∧
      ∀ t, lastLevel (events.foldl (fun h e => h.record e.1 e.2) h).changes.toList t =
        lastLevel (h.changes.toList ++ events) t := by
  induction events with
  | nil =>
    intro h hs _
    exact ⟨hs, fun t => by simp⟩
  | cons e es ih =>
    intro h hs hle
    obtain ⟨he, hes⟩ := List.pairwise_cons.1 hev
    have hle₁ : ∀ c ∈ h.changes.toList, c.1 ≤ e.1 := fun c hc => hle c hc e List.mem_cons_self
    -- the recorded change is no later than the changes still to come
    have hle' : ∀ c ∈ (h.record e.1 e.2).changes.toList, ∀ e' ∈ es, c.1 ≤ e'.1 := by
      intro c hc e' he'
      rcases mem_record hc with hc | hc
      · exact hle c hc e' (List.mem_cons_of_mem _ he')
      · rw [hc]
        exact he e' he'
    obtain ⟨hs', hlev⟩ := ih hes (hs.record hle₁ e.2) hle'
    refine ⟨hs', fun t => ?_⟩
    rw [List.foldl_cons, hlev, lastLevel_append_congr (lastLevel_record hle₁ e.2) es t]
    simp

/-- A history recorded from nothing, from changes in tick order, has strictly increasing ticks and
gives at each tick the level of the last change at or before it. -/
theorem foldl_record_empty {events : List (Nat × Bool)}
    (hev : events.Pairwise fun a b => a.1 ≤ b.1) :
    (events.foldl (fun h e => h.record e.1 e.2) empty).StrictlySorted ∧
      ∀ t, (events.foldl (fun h e => h.record e.1 e.2) empty).levelAt t = lastLevel events t := by
  have h0 : empty.StrictlySorted := List.Pairwise.nil
  obtain ⟨hs, hlev⟩ := foldl_record hev h0 (fun c hc => by cases hc)
  refine ⟨hs, fun t => ?_⟩
  rw [levelAt_eq_last (hs.imp Nat.le_of_lt), ← lastLevel, hlev]
  rfl

/-- Recording changes one after another into a fresh history, their ticks never decreasing, keeps
the level they describe: the recorded ticks strictly increase, and the level at every tick is
that of the last change recorded at or before it, or low when there is none. -/
theorem levelAt_recorded {changes : List (Nat × Bool)}
    (hc : (changes.map (·.1)).Pairwise (· ≤ ·)) :
    ((changes.foldl (fun h c => h.record c.1 c.2) empty).changes.toList.map (·.1)).Pairwise
        (· < ·) ∧
      ∀ t, (changes.foldl (fun h c => h.record c.1 c.2) empty).levelAt t =
        ((changes.filter (·.1 ≤ t)).getLast?.map (·.2)).getD false := by
  obtain ⟨hs, hlev⟩ := foldl_record_empty (List.pairwise_map.1 hc)
  exact ⟨List.pairwise_map.2 hs, hlev⟩

/-- A change overwritten at its own tick, then a level that already holds, then a change. -/
theorem levelAt_recorded_sample :
    ([(0, false), (0, true), (5, true), (7, false)].map (·.1)).Pairwise (· ≤ ·) ∧
    (([(0, false), (0, true), (5, true), (7, false)].foldl (fun h c => h.record c.1 c.2)
        empty).changes.toList.map (·.1)).Pairwise (· < ·) ∧
      ∀ t, ([(0, false), (0, true), (5, true), (7, false)].foldl (fun h c => h.record c.1 c.2)
          empty).levelAt t =
        ((([(0, false), (0, true), (5, true), (7, false)] : List (Nat × Bool)).filter
          (·.1 ≤ t)).getLast?.map (·.2)).getD false :=
  ⟨by decide, levelAt_recorded (by decide)⟩

end PinWave.History

namespace PinWave.Dump

namespace Change

/-- The value changes of a dump, each with its tick, its identifier code and its levels: the
tick is the last one given before the change, or `cur` before the first. -/
def timed : Nat → List Change → List (Nat × Nat × List UInt8)
  | _, [] => []
  | _, .tick t :: rest => timed t rest
  | cur, .levels code bits :: rest => (cur, code, bits) :: timed cur rest

/-- The ticks a dump gives, in order. -/
def ticks (changes : List Change) : List Nat :=
  changes.filterMap fun
    | .tick t => some t
    | .levels .. => none

/-- When the ticks given do not decrease, neither do the ticks of the value changes. -/
theorem timed_sorted : ∀ (changes : List Change) (cur : Nat), (∀ t ∈ ticks changes, cur ≤ t) →
    (ticks changes).Pairwise (· ≤ ·) →
      (timed cur changes).Pairwise (fun a b => a.1 ≤ b.1) ∧ ∀ e ∈ timed cur changes, cur ≤ e.1
  | [], _, _, _ => ⟨List.Pairwise.nil, fun _ h => by cases h⟩
  | .tick t :: rest, cur, hcur, hs => by
    have hticks : ticks (.tick t :: rest) = t :: ticks rest := rfl
    rw [hticks, List.pairwise_cons] at hs
    have ht : cur ≤ t := hcur t (by rw [hticks]; exact List.mem_cons_self)
    obtain ⟨hsorted, hge⟩ := timed_sorted rest t hs.1 hs.2
    exact ⟨hsorted, fun e he => Nat.le_trans ht (hge e he)⟩
  | .levels code bits :: rest, cur, hcur, hs => by
    obtain ⟨hsorted, hge⟩ := timed_sorted rest cur hcur hs
    rw [show timed cur (.levels code bits :: rest) = (cur, code, bits) :: timed cur rest from rfl]
    exact ⟨List.pairwise_cons.2 ⟨hge, hsorted⟩, List.forall_mem_cons.2 ⟨Nat.le_refl cur, hge⟩⟩

end Change

/-- The targets of an identifier code: where its levels go. -/
def targetsFor (targets : List (Nat × List Target)) (code : Nat) : List Target :=
  ((targets.find? (·.1 == code)).map (·.2)).getD []

/-- The changes the history of signal `j` receives from value changes with their ticks: for each
value change, one for every target of its code that is `j`. -/
def signalEvents (targets : List (Nat × List Target)) (j : Nat)
    (timed : List (Nat × Nat × List UInt8)) : List (Nat × Bool) :=
  timed.flatMap fun e =>
    ((targetsFor targets e.2.1).filter (·.signal = j)).map fun t => (e.1, levelOf e.2.2 t)

/-- A signal's changes come in the order of the value changes, so in tick order when they do. -/
theorem signalEvents_sorted (targets : List (Nat × List Target)) (j : Nat)
    {timed : List (Nat × Nat × List UInt8)} (hs : timed.Pairwise fun a b => a.1 ≤ b.1) :
    (signalEvents targets j timed).Pairwise fun a b => a.1 ≤ b.1 := by
  unfold signalEvents
  refine List.pairwise_flatMap.2 ⟨fun e _ => ?_, hs.imp fun hab x hx y hy => ?_⟩
  · -- the changes of one value change share its tick
    refine List.Pairwise.imp_of_mem (R := fun _ _ => True) (fun {x y} hx hy _ => ?_)
      (List.pairwise_of_forall fun _ _ => trivial)
    obtain ⟨_, -, rfl⟩ := List.mem_map.1 hx
    obtain ⟨_, -, rfl⟩ := List.mem_map.1 hy
    exact Nat.le_refl _
  · obtain ⟨_, -, rfl⟩ := List.mem_map.1 hx
    obtain ⟨_, -, rfl⟩ := List.mem_map.1 hy
    exact hab

/-- Changing entries of an array one target after another changes entry `j` by the targets of
`j`, in order. -/
theorem getElem?_foldl_modify (f : Target → History → History) :
    ∀ (ts : List Target) (hs : Array History) (j : Nat),
      (ts.foldl (fun hs t => hs.modify t.signal (f t)) hs)[j]? =
        hs[j]?.map fun h => (ts.filter (·.signal = j)).foldl (fun h t => f t h) h := by
  intro ts
  induction ts with
  | nil =>
    intro hs j
    simp
  | cons t ts ih =>
    intro hs j
    rw [List.foldl_cons, ih, Array.getElem?_modify]
    by_cases hj : t.signal = j
    · simp [hj, Option.map_map, Function.comp_def]
    · simp [hj]

/-- Changing entries of an array one target after another keeps its size. -/
theorem size_foldl_modify (f : Target → History → History) :
    ∀ (ts : List Target) (hs : Array History),
      (ts.foldl (fun hs t => hs.modify t.signal (f t)) hs).size = hs.size := by
  intro ts
  induction ts with
  | nil =>
    intro hs
    rfl
  | cons t ts ih =>
    intro hs
    rw [List.foldl_cons, ih, Array.size_modify]

theorem apply_tick (targets : List (Nat × List Target)) (r : Reading) (t : Nat) :
    Reading.apply targets r (.tick t) = { r with first := r.first <|> some t, current := some t } :=
  rfl

theorem apply_levels (targets : List (Nat × List Target)) (r : Reading) (code : Nat)
    (bits : List UInt8) :
    Reading.apply targets r (.levels code bits) =
      { r with histories := ((targetsFor targets code).foldl (fun hs t =>
          hs.modify t.signal (·.record (r.current.getD 0) (levelOf bits t)))
          r.histories) } := by
  unfold Reading.apply targetsFor
  dsimp only
  cases targets.find? (·.1 == code) with
  | none => rfl
  | some e => rfl

/-- After reading changes, the history of signal `j` has recorded, in order, the changes it
receives from the value changes at their ticks. -/
theorem histories_foldl_apply (targets : List (Nat × List Target)) :
    ∀ (changes : List Change) (r : Reading) (j : Nat),
      (changes.foldl (Reading.apply targets) r).histories[j]? =
        r.histories[j]?.map fun h =>
          (signalEvents targets j (Change.timed (r.current.getD 0) changes)).foldl
            (fun h e => h.record e.1 e.2) h := by
  intro changes
  induction changes with
  | nil =>
    intro r j
    simp [Change.timed, signalEvents]
  | cons c cs ih =>
    intro r j
    rw [List.foldl_cons, ih]
    cases c with
    | tick t => simp [apply_tick, Change.timed]
    | levels code bits =>
      rw [apply_levels, getElem?_foldl_modify]
      simp [Change.timed, signalEvents, Option.map_map, Function.comp_def, List.foldl_map]

theorem size_foldl_apply (targets : List (Nat × List Target)) :
    ∀ (changes : List Change) (r : Reading),
      (changes.foldl (Reading.apply targets) r).histories.size = r.histories.size := by
  intro changes
  induction changes with
  | nil =>
    intro r
    rfl
  | cons c cs ih =>
    intro r
    rw [List.foldl_cons, ih]
    cases c with
    | tick t => rfl
    | levels code bits =>
      rw [apply_levels]
      exact size_foldl_modify _ _ _

/-- Reading changes keeps the first tick given and ends at the last one. -/
theorem first_foldl_apply (targets : List (Nat × List Target)) :
    ∀ (changes : List Change) (r : Reading),
      (changes.foldl (Reading.apply targets) r).first = (r.first <|> (Change.ticks changes).head?) ∧
      (changes.foldl (Reading.apply targets) r).current =
        ((Change.ticks changes).getLast? <|> r.current) := by
  intro changes
  induction changes with
  | nil =>
    intro r
    simp [Change.ticks]
  | cons c cs ih =>
    intro r
    rw [List.foldl_cons, (ih _).1, (ih _).2]
    cases c with
    | tick t =>
      have hticks : Change.ticks (.tick t :: cs) = t :: Change.ticks cs := rfl
      rw [hticks, apply_tick, List.head?_cons, List.getLast?_cons]
      constructor
      · cases r.first <;> rfl
      · cases (Change.ticks cs).getLast? <;> rfl
    | levels code bits => simp [apply_levels, Change.ticks]

end PinWave.Dump
