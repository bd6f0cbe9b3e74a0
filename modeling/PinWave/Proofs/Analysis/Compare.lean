import PinWave.Proofs.Wave.Bits
import PinWave.Proofs.Pin.Table
import Mathlib.Data.List.Forall2
/-!
# Comparing two waves against their differences

A comparison lists the signals the first wave carries, each with whether the two waves agree on
it over the steps both have; the differences of named signals give, over the same steps, each
signal's levels in both waves and where they differ. Both cut the two traces of a signal at the
shorter length, so they see the same pair of level lists (`Difference.ofSignal`): a signal agrees
exactly when no step of its difference differs, exactly when the words of the two waves agree on
its bit at every shared step. The differences fail at the first name the table lacks, and seen
from the other wave each difference has its two level lists swapped.

## Main definitions
* `Difference.ofSignal`: the difference of one signal in two waves.
* `Difference.Describes`: what the difference of a signal holds.

## Main statements
* `compare_eq_differences`: the comparison agrees with the differences, and what the differences
  of any names are.
-/

namespace PinWave

open Wave

/-- The difference of one signal in two waves: its levels in each over the steps both have, and
where they differ. -/
def Difference.ofSignal (w1 w2 : Wave) (s : Signal) : Difference :=
  let common := min w1.length w2.length
  let a := (w1.trace s.bit).take common
  let b := (w2.trace s.bit).take common
  ⟨s.name, a, b, List.zipWith (fun x y => x != y) a b⟩

/-- The same difference seen from the other wave: the two level lists change places. -/
def Difference.swap (d : Difference) : Difference := ⟨d.name, d.second, d.first, d.xor⟩

/-- What the difference of signal `s` in two waves holds: the signal's name; its levels in each
wave over the steps both have; and, where the first has `a` and the second `b` at a step,
`a != b`. -/
structure Difference.Describes (w1 w2 : Wave) (s : Signal) (d : Difference) : Prop where
  name : d.name = s.name
  first : d.first = (w1.vector.take (min w1.length w2.length)).map (bitAt · s.bit)
  second : d.second = (w2.vector.take (min w1.length w2.length)).map (bitAt · s.bit)
  length_xor : d.xor.length = min w1.length w2.length
  xor : ∀ (i : Nat) (a b : Bool), d.first[i]? = some a → d.second[i]? = some b →
    d.xor[i]? = some (a != b)

/-! ## Looking a name up -/

namespace PinTable

variable {t : PinTable} {n : String}

theorem require_of_find? {s : Signal} (h : t.find? n = some s) : t.require n = .ok s := by
  simp [PinTable.require, h]

theorem require_of_find?_none (h : t.find? n = none) :
    t.require n = .error (.unknownSignal n) := by
  simp [PinTable.require, h]

end PinTable

/-- The bitstream of a named signal is the trace of its bit. -/
theorem bitstream_of_find? {t : PinTable} {w : Wave} {n : String} {s : Signal}
    (h : t.find? n = some s) : bitstream t w n = .ok (w.trace s.bit) := by
  simp [bitstream, PinTable.require_of_find? h, bind, Except.bind, pure, Except.pure]

/-! ## One signal -/

theorem take_trace (w : Wave) (b : Fin 64) (n : Nat) :
    (w.trace b).take n = (w.vector.take n).map (bitAt · b) := by
  rw [trace_eq, List.map_take]

theorem Difference.describes_ofSignal (w1 w2 : Wave) (s : Signal) :
    (Difference.ofSignal w1 w2 s).Describes w1 w2 s := by
  refine ⟨rfl, take_trace _ _ _, take_trace _ _ _, ?_, fun i a b ha hb => ?_⟩
  · simp only [ofSignal, take_trace, List.length_zipWith, List.length_map, List.length_take,
      Wave.length]
    omega
  · simp [ofSignal, List.getElem?_zipWith, ha, hb] at *

/-- Seen from the other wave, a signal's difference has its two level lists swapped. -/
theorem Difference.ofSignal_swap (w1 w2 : Wave) (s : Signal) :
    Difference.ofSignal w2 w1 s = (Difference.ofSignal w1 w2 s).swap := by
  simp only [ofSignal, swap, Nat.min_comm w2.length w1.length, Difference.mk.injEq, true_and]
  rw [List.zipWith_comm]
  simp [Bool.xor_comm]

namespace Difference.Describes

variable {w1 w2 : Wave} {s : Signal} {d : Difference}

theorem length_first (hd : d.Describes w1 w2 s) : d.first.length = min w1.length w2.length := by
  simp only [hd.first, List.length_map, List.length_take, Wave.length]
  omega

theorem length_second (hd : d.Describes w1 w2 s) :
    d.second.length = min w1.length w2.length := by
  simp only [hd.second, List.length_map, List.length_take, Wave.length]
  omega

/-- The levels agree over the steps both waves have exactly when the words agree on the bit. -/
theorem first_eq_second_iff (hd : d.Describes w1 w2 s) :
    d.first = d.second ↔ ∀ i (h1 : i < w1.vector.length) (h2 : i < w2.vector.length),
      bitAt w1.vector[i] s.bit = bitAt w2.vector[i] s.bit := by
  have hc : min w1.length w2.length ≤ w1.vector.length ∧
      min w1.length w2.length ≤ w2.vector.length := by
    simp only [Wave.length]
    omega
  rw [hd.first, hd.second, List.ext_getElem_iff]
  simp only [List.length_map, List.length_take, List.getElem_map, List.getElem_take]
  constructor
  · rintro ⟨-, h⟩ i h1 h2
    exact h i (by simp only [Wave.length]; omega) (by simp only [Wave.length]; omega)
  · intro h
    exact ⟨by omega, fun i h1 h2 => h i (by omega) (by omega)⟩

/-- No step differs exactly when the levels agree. -/
theorem xor_all_false_iff (hd : d.Describes w1 w2 s) :
    (∀ x ∈ d.xor, x = false) ↔ d.first = d.second := by
  have hfirst : ∀ i < min w1.length w2.length, ∃ a, d.first[i]? = some a := fun i hi =>
    ⟨_, List.getElem?_eq_getElem (by rw [hd.length_first]; exact hi)⟩
  have hsecond : ∀ i < min w1.length w2.length, ∃ b, d.second[i]? = some b := fun i hi =>
    ⟨_, List.getElem?_eq_getElem (by rw [hd.length_second]; exact hi)⟩
  constructor
  · intro h
    refine List.ext_getElem? fun i => ?_
    by_cases hi : i < min w1.length w2.length
    · obtain ⟨a, ha⟩ := hfirst i hi
      obtain ⟨b, hb⟩ := hsecond i hi
      have hab := h _ (List.mem_of_getElem? (hd.xor i a b ha hb))
      rw [ha, hb, show a = b by simpa using hab]
    · rw [List.getElem?_eq_none (by rw [hd.length_first]; omega),
        List.getElem?_eq_none (by rw [hd.length_second]; omega)]
  · intro heq x hx
    obtain ⟨i, hi⟩ := List.mem_iff_getElem?.1 hx
    have hlt : i < min w1.length w2.length := by
      rw [← hd.length_xor]
      exact (List.getElem?_eq_some_iff.1 hi).1
    obtain ⟨a, ha⟩ := hfirst i hlt
    have hx' := hd.xor i a a ha (heq ▸ ha)
    rw [hi] at hx'
    simpa using hx'

end Difference.Describes

/-! ## Running over names -/

section MapM

variable {α β γ ε : Type} {f : α → Except ε β}

theorem mapM_append_cons_of_error {pre : List α} {a : α} {e : ε}
    (hpre : ∀ x ∈ pre, ∃ b, f x = .ok b) (ha : f a = .error e) (post : List α) :
    (pre ++ a :: post).mapM f = .error e := by
  induction pre with
  | nil => simp [List.mapM_cons, ha, bind, Except.bind]
  | cons x pre ih =>
    obtain ⟨b, hb⟩ := hpre x List.mem_cons_self
    simp [List.mapM_cons, hb, ih (fun y hy => hpre y (List.mem_cons_of_mem _ hy)), bind,
      Except.bind]

theorem mapM_eq_ok_forall₂ {l : List α} (hl : ∀ x ∈ l, ∃ b, f x = .ok b) :
    ∃ bs, l.mapM f = .ok bs ∧ List.Forall₂ (fun x b => f x = .ok b) l bs := by
  induction l with
  | nil => exact ⟨[], rfl, .nil⟩
  | cons x l ih =>
    obtain ⟨b, hb⟩ := hl x List.mem_cons_self
    obtain ⟨bs, hbs, hall⟩ := ih fun y hy => hl y (List.mem_cons_of_mem _ hy)
    exact ⟨b :: bs, by simp [List.mapM_cons, hb, hbs, bind, Except.bind, pure, Except.pure],
      .cons hb hall⟩

theorem map_mapM (g : β → γ) (l : List α) :
    (l.mapM f).map (List.map g) = l.mapM fun x => (f x).map g := by
  induction l with
  | nil => rfl
  | cons x l ih =>
    simp only [List.mapM_cons, ← ih]
    cases f x <;> cases l.mapM f <;> rfl

end MapM

section Differences

variable {t : PinTable} (w1 w2 : Wave)

theorem differences_eq (names : List String) :
    differences t w1 w2 names =
      names.mapM fun n => (t.require n).map (Difference.ofSignal w1 w2) := by
  rfl

/-- The first name the table lacks is the error, whatever follows it. -/
theorem differences_of_unknown {pre : List String} {n : String}
    (hpre : ∀ m ∈ pre, (t.find? m).isSome) (hn : t.find? n = none) (post : List String) :
    differences t w1 w2 (pre ++ n :: post) = .error (.unknownSignal n) := by
  rw [differences_eq]
  refine mapM_append_cons_of_error (fun m hm => ?_)
    (by rw [PinTable.require_of_find?_none hn]; rfl) post
  obtain ⟨s, hs⟩ := Option.isSome_iff_exists.1 (hpre m hm)
  exact ⟨_, by rw [PinTable.require_of_find? hs]; rfl⟩

/-- Names that all name signals have one difference each, describing the signal named. -/
theorem differences_of_known {names : List String} (h : ∀ n ∈ names, (t.find? n).isSome) :
    ∃ ds, differences t w1 w2 names = .ok ds ∧
      List.Forall₂ (fun n d => ∃ s, t.find? n = some s ∧ d.Describes w1 w2 s) names ds := by
  rw [differences_eq]
  have hok : ∀ n ∈ names, ∃ d, (t.require n).map (Difference.ofSignal w1 w2) = .ok d := by
    intro n hn
    obtain ⟨s, hs⟩ := Option.isSome_iff_exists.1 (h n hn)
    exact ⟨_, by rw [PinTable.require_of_find? hs]; rfl⟩
  obtain ⟨ds, hds, hall⟩ := mapM_eq_ok_forall₂ hok
  refine ⟨ds, hds, hall.imp fun {n d} hd => ?_⟩
  cases hs : t.find? n with
  | none => simp [PinTable.require_of_find?_none hs, Except.map] at hd
  | some s =>
    rw [PinTable.require_of_find? hs] at hd
    cases hd
    exact ⟨s, rfl, Difference.describes_ofSignal w1 w2 s⟩

/-- Swapping the waves swaps the two level lists of every difference. -/
theorem differences_swap (names : List String) :
    differences t w2 w1 names = (differences t w1 w2 names).map (List.map Difference.swap) := by
  rw [differences_eq, differences_eq, map_mapM]
  congr 1
  funext n
  cases t.require n with
  | error e => rfl
  | ok s => exact congrArg Except.ok (Difference.ofSignal_swap w1 w2 s)

end Differences

/-! ## The comparison -/

/-- Every signal a wave carries is the one its name finds. -/
theorem PinTable.find?_of_mem_waveSignals {t : PinTable} (ht : t.WellFormed) {w : Wave}
    {s : Signal} (hs : s ∈ t.waveSignals w) : t.find? s.name = some s := by
  unfold PinTable.waveSignals at hs
  split at hs
  · unfold PinTable.groupSignals at hs
    split at hs
    · -- a member of a group is the signal its name finds, so it has that name
      obtain ⟨n, -, hn⟩ := List.mem_filterMap.1 hs
      have hname : s.name = n := by simpa using List.find?_some hn
      rw [hname]
      exact hn
    · cases hs
  · exact PinTable.findIn_of_mem ht.nodup hs

/-- The rows of a comparison are the signals the first wave carries, each agreeing when the two
level lists of its difference are equal. -/
theorem forall₂_rows_compare (t : PinTable) (w1 w2 : Wave) {R : Signal → Comparison → Prop}
    (h : ∀ s ∈ t.waveSignals w1, ∀ c : Comparison, c.name = s.name → c.direction = s.direction →
      c.passthrough =
        ((Difference.ofSignal w1 w2 s).first == (Difference.ofSignal w1 w2 s).second) →
        R s c) :
    List.Forall₂ R (t.waveSignals w1) (compare t w1 w2).rows := by
  unfold compare
  rw [List.forall₂_map_right_iff, List.forall₂_same]
  exact fun s hs => h s hs _ rfl rfl rfl

/-- Over a table read from text, the comparison of two waves has their lengths and one row per
signal the first wave carries, in order; a row agrees exactly when the difference of its signal is
one that differs nowhere, exactly when the two waves' words agree on its bit at every step both
have. The differences of any names fail with the first name the table lacks; names that all
name signals have one difference each, describing it; and swapping the waves swaps the two level
lists of each difference. -/
theorem compare_eq_differences {text : String} {t : PinTable} (ht : PinTable.parse text = .ok t)
    (w1 w2 : Wave) :
    (compare t w1 w2).len1 = w1.length ∧ (compare t w1 w2).len2 = w2.length ∧
    List.Forall₂ (fun s c => c.name = s.name ∧ c.direction = s.direction ∧
        (c.passthrough = true ↔
          ∃ d, differences t w1 w2 [s.name] = .ok [d] ∧ ∀ x ∈ d.xor, x = false) ∧
        (c.passthrough = true ↔ ∀ i (h1 : i < w1.vector.length) (h2 : i < w2.vector.length),
          bitAt w1.vector[i] s.bit = bitAt w2.vector[i] s.bit))
      (t.waveSignals w1) (compare t w1 w2).rows ∧
    ∀ names : List String,
      (∀ pre n post, names = pre ++ n :: post → (∀ m ∈ pre, (t.find? m).isSome) →
        t.find? n = none → differences t w1 w2 names = .error (.unknownSignal n)) ∧
      ((∀ n ∈ names, (t.find? n).isSome) → ∃ ds, differences t w1 w2 names = .ok ds ∧
        List.Forall₂ (fun n d => ∃ s, t.find? n = some s ∧ d.Describes w1 w2 s) names ds) ∧
      differences t w2 w1 names = (differences t w1 w2 names).map (List.map Difference.swap) := by
  have hwf := PinTable.parse_wellFormed ht
  refine ⟨rfl, rfl, forall₂_rows_compare t w1 w2 fun s hs c hname hdir hpass => ?_,
    fun names => ⟨?_, differences_of_known w1 w2, differences_swap w1 w2 names⟩⟩
  · have hd := Difference.describes_ofSignal w1 w2 s
    -- the name of a carried signal finds it, so its difference is the one compared
    have hdiff : differences t w1 w2 [s.name] = .ok [Difference.ofSignal w1 w2 s] := by
      rw [differences_eq, List.mapM_cons,
        PinTable.require_of_find? (PinTable.find?_of_mem_waveSignals hwf hs)]
      rfl
    refine ⟨hname, hdir, ?_, ?_⟩
    · rw [hpass, beq_iff_eq, ← hd.xor_all_false_iff, hdiff]
      constructor
      · exact fun h => ⟨_, rfl, h⟩
      · rintro ⟨d, hd', h⟩
        cases hd'
        exact h
    · rw [hpass, beq_iff_eq, hd.first_eq_second_iff]
  · rintro pre n post rfl hpre hn
    exact differences_of_unknown w1 w2 hpre hn post

/-- Two waves of different lengths, the first of group `A/x` and the second of none, over a table
of two groups. -/
theorem compare_eq_differences_sample :
    let w1 : Wave := ⟨[1, 3, 2], 1.0, some ⟨["A", "x"]⟩, 0, 0, ⟨[]⟩⟩
    let w2 : Wave := ⟨[1, 1], 1.0, none, 0, 0, ⟨[]⟩⟩
    ∃ t, PinTable.parse "HARDWARE A/x BEGIN\nS,I,0\nT,O,1\nEND\nHARDWARE B/y BEGIN\nU,I,0\nEND\n" =
        .ok t ∧
      (compare t w1 w2).len1 = w1.length ∧ (compare t w1 w2).len2 = w2.length ∧
      List.Forall₂ (fun s c => c.name = s.name ∧ c.direction = s.direction ∧
          (c.passthrough = true ↔
            ∃ d, differences t w1 w2 [s.name] = .ok [d] ∧ ∀ x ∈ d.xor, x = false) ∧
          (c.passthrough = true ↔ ∀ i (h1 : i < w1.vector.length) (h2 : i < w2.vector.length),
            bitAt w1.vector[i] s.bit = bitAt w2.vector[i] s.bit))
        (t.waveSignals w1) (compare t w1 w2).rows ∧
      ∀ names : List String,
        (∀ pre n post, names = pre ++ n :: post → (∀ m ∈ pre, (t.find? m).isSome) →
          t.find? n = none → differences t w1 w2 names = .error (.unknownSignal n)) ∧
        ((∀ n ∈ names, (t.find? n).isSome) → ∃ ds, differences t w1 w2 names = .ok ds ∧
          List.Forall₂ (fun n d => ∃ s, t.find? n = some s ∧ d.Describes w1 w2 s) names ds) ∧
        differences t w2 w1 names = (differences t w1 w2 names).map (List.map Difference.swap) := by
  intro w1 w2
  have hok : (PinTable.parse
      "HARDWARE A/x BEGIN\nS,I,0\nT,O,1\nEND\nHARDWARE B/y BEGIN\nU,I,0\nEND\n").toOption.isSome =
      true := by decide +kernel
  cases ht :
      PinTable.parse "HARDWARE A/x BEGIN\nS,I,0\nT,O,1\nEND\nHARDWARE B/y BEGIN\nU,I,0\nEND\n" with
  | error e =>
    rw [ht] at hok
    cases hok
  | ok t => exact ⟨t, rfl, compare_eq_differences ht w1 w2⟩

end PinWave
