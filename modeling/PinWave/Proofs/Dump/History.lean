import PinWave.Dump.History
/-!
# Looking up levels in a history

On changes in tick order, the changes at or before a tick are a prefix of the history, and
`History.count` is its length. The bisection keeps that length between the ends of its span and
halves the span until one change is left to test, so it finds the length
(`History.countAtOrBefore_eq`); the level at a tick is then that of the last change of the
prefix. A cursor that reads ticks in order never has to move back: from the prefix of one tick
it walks forward to the prefix of the next (`History.advance_eq`), and so it reads at every tick
the level the lookup gives (`History.cursorLevels_eq`). A tick below one read before leaves it in
place, so on ticks in any order it reads the level at the largest tick read so far.

## Main definitions
* `History.Sorted`: changes in tick order.
* `History.count`: the number of changes at or before a tick.
* `History.levelAfter`: the level once the first changes have happened.

## Main statements
* `History.countAtOrBefore_eq`: the bisection counts the changes at or before a tick.
* `History.cursorLevels_eq`: on ticks in order, the cursor reads the level at each tick.
* `History.cursorLevels_spec`: on ticks in any order, the cursor reads the level at the largest
  tick so far, and the level at a tick is that of the last change at or before it.
-/

namespace PinWave.History

/-- Changes in tick order. -/
def Sorted (h : History) : Prop := h.changes.toList.Pairwise fun a b => a.1 ≤ b.1

instance : DecidablePred Sorted := fun h => inferInstanceAs (Decidable (h.changes.toList.Pairwise _))

/-- The number of changes at or before a tick. -/
def count (h : History) (tick : Nat) : Nat := h.changes.toList.countP fun c => c.1 ≤ tick

/-- The level once the first `p` changes have happened: that of the last of them, or low. -/
def levelAfter (h : History) : Nat → Bool
  | 0 => false
  | i + 1 => (h.changes[i]?.map (·.2)).getD false

theorem levelAt_eq_levelAfter (h : History) (tick : Nat) :
    h.levelAt tick = h.levelAfter (h.countAtOrBefore tick) := by
  unfold levelAt
  cases h.countAtOrBefore tick <;> rfl

/-! ## The changes at or before a tick are a prefix -/

/-- In a list sorted by tick, the entries at or before a tick are the first `countP` of them. -/
theorem le_iff_lt_countP {l : List (Nat × Bool)} (hs : l.Pairwise fun a b => a.1 ≤ b.1)
    (tick : Nat) {i : Nat} (hi : i < l.length) :
    l[i].1 ≤ tick ↔ i < l.countP fun c => c.1 ≤ tick := by
  induction l generalizing i with
  | nil => simp at hi
  | cons a l ih =>
    obtain ⟨ha, hs⟩ := List.pairwise_cons.1 hs
    by_cases hat : a.1 ≤ tick
    · rw [List.countP_cons_of_pos (by simpa using hat)]
      cases i with
      | zero => simpa using hat
      | succ i =>
        simp only [List.getElem_cons_succ]
        rw [ih hs (by simpa using hi)]
        omega
    · -- a change past the tick puts every later change past it too
      have hnone : (l.countP fun c => c.1 ≤ tick) = 0 :=
        List.countP_eq_zero.2 fun c hc hle => hat (Nat.le_trans (ha c hc) (by simpa using hle))
      rw [List.countP_cons_of_neg (by simpa using hat), hnone]
      cases i with
      | zero => simpa using hat
      | succ i =>
        simp only [List.getElem_cons_succ]
        constructor
        · intro hle
          exact absurd (Nat.le_trans (ha _ (List.getElem_mem _)) hle) hat
        · intro h0
          omega

theorem count_le_size (h : History) (tick : Nat) : h.count tick ≤ h.changes.size := by
  have := List.countP_le_length (p := fun c : Nat × Bool => decide (c.1 ≤ tick)) (l := h.changes.toList)
  simpa [count] using this

/-- A change is counted at a tick exactly when it lies before the count. -/
theorem atOrBefore_iff {h : History} (hs : h.Sorted) (tick i : Nat) :
    h.atOrBefore tick i = true ↔ i < h.count tick := by
  unfold atOrBefore
  by_cases hi : i < h.changes.size
  · rw [Array.getElem?_eq_getElem hi]
    have := le_iff_lt_countP hs tick (i := i) (by simpa using hi)
    simp only [Array.getElem_toList] at this
    simpa [count] using this
  · rw [Array.getElem?_eq_none (by omega)]
    have := count_le_size h tick
    simp only [Bool.false_eq_true, false_iff, Nat.not_lt]
    omega

theorem count_mono (h : History) {t t' : Nat} (htt : t ≤ t') : h.count t ≤ h.count t' :=
  List.countP_mono_left fun _ _ hle => by simp only [decide_eq_true_eq] at hle ⊢; omega

/-! ## Bisection -/

/-- The bisection keeps the count between the ends of its span: a probe at or before the tick
moves the start up to it, any other probe leaves the count at or below it. -/
theorem bisect_eq {h : History} (hs : h.Sorted) (tick : Nat) {size : Nat} :
    ∀ {base : Nat}, 0 < size → base ≤ h.count tick → h.count tick ≤ base + size →
      h.bisect tick base size = h.count tick := by
  induction size using Nat.strongRecOn with
  | ind size ih =>
    intro base hsize hlo hhi
    rw [bisect]
    split
    · -- one change is left to test
      split
      · rename_i hat
        have := (atOrBefore_iff hs tick base).1 hat
        omega
      · rename_i hat
        have := mt (atOrBefore_iff hs tick base).2 hat
        omega
    · rename_i hbig
      dsimp only
      split
      · rename_i hat
        have := (atOrBefore_iff hs tick (base + size / 2)).1 hat
        exact ih _ (by omega) (by omega) (by omega) (by omega)
      · rename_i hat
        have := mt (atOrBefore_iff hs tick (base + size / 2)).2 hat
        exact ih _ (by omega) (by omega) hlo (by omega)

/-- On changes in tick order, the bisection counts the changes at or before the tick. -/
theorem countAtOrBefore_eq {h : History} (hs : h.Sorted) (tick : Nat) :
    h.countAtOrBefore tick = h.count tick := by
  unfold countAtOrBefore
  have := count_le_size h tick
  split
  · omega
  · exact bisect_eq hs tick (by omega) (Nat.zero_le _) (by omega)

/-- On changes in tick order, the level at a tick is that of the last change at or before it. -/
theorem levelAt_eq {h : History} (hs : h.Sorted) (tick : Nat) :
    h.levelAt tick = h.levelAfter (h.count tick) := by
  rw [levelAt_eq_levelAfter, countAtOrBefore_eq hs]

/-! ## The cursor -/

/-- One advance of the cursor: from the first `p` changes, all at or before the tick, it walks to
the count of the tick, taking the level of each change it passes. -/
theorem advance_eq {h : History} (hs : h.Sorted) (tick : Nat) :
    ∀ {p : Nat}, p ≤ h.count tick →
      h.advance tick ⟨p, h.levelAfter p⟩ = ⟨h.count tick, h.levelAfter (h.count tick)⟩ := by
  intro p hp
  induction hk : h.count tick - p generalizing p with
  | zero =>
    obtain rfl : p = h.count tick := by omega
    rw [advance]
    split
    · -- the next change is past the tick, so the cursor stays
      rename_i hlt
      have := mt (atOrBefore_iff hs tick (h.count tick)).1 (Nat.lt_irrefl _)
      simp only [atOrBefore, Array.getElem?_eq_getElem hlt, decide_eq_true_eq] at this
      dsimp only
      rw [if_neg this]
    · rfl
  | succ k ih =>
    have hlt : p < h.count tick := by omega
    have hsize : p < h.changes.size := Nat.lt_of_lt_of_le hlt (count_le_size h tick)
    have hat := (atOrBefore_iff hs tick p).2 hlt
    simp only [atOrBefore, Array.getElem?_eq_getElem hsize] at hat
    rw [advance, dif_pos hsize]
    dsimp only
    rw [if_pos (by simpa using hat)]
    -- the passed change sets the level after `p + 1` changes
    have hlev : h.changes[p].2 = h.levelAfter (p + 1) := by
      simp [levelAfter, Array.getElem?_eq_getElem hsize]
    rw [hlev]
    exact ih (by omega) (by omega)

/-- Reading ticks in order, the cursor reads the level at each tick. -/
theorem foldl_cursor {h : History} (hs : h.Sorted) :
    ∀ (ticks : List Nat) (p : Nat) (acc : List Bool), ticks.Pairwise (· ≤ ·) →
      (∀ t ∈ ticks, p ≤ h.count t) →
      (ticks.foldl (fun (c, acc) t => let c := h.advance t c; (c, c.level :: acc))
        (⟨p, h.levelAfter p⟩, acc)).2 = (ticks.map h.levelAt).reverse ++ acc
  | [], _, _, _, _ => rfl
  | t :: ts, p, acc, hts, hp => by
    obtain ⟨hle, hts⟩ := List.pairwise_cons.1 hts
    rw [List.foldl_cons]
    dsimp only
    rw [advance_eq hs t (hp t List.mem_cons_self)]
    rw [foldl_cursor hs ts _ _ hts fun t' ht' => h.count_mono (hle t' ht'), List.map_cons,
      List.reverse_cons, levelAt_eq hs t, List.append_assoc]
    rfl

/-- On changes in tick order and ticks that do not decrease, the cursor reads at every tick the
level the lookup gives. -/
theorem cursorLevels_eq {h : History} (hs : h.Sorted) {ticks : List Nat}
    (ht : ticks.Pairwise (· ≤ ·)) : h.cursorLevels ticks = ticks.map h.levelAt := by
  unfold cursorLevels
  have h0 := foldl_cursor hs ticks 0 [] ht fun _ _ => Nat.zero_le _
  rw [show h.levelAfter 0 = false from rfl] at h0
  rw [h0]
  simp

/-- A cursor reads one level per tick. -/
theorem length_cursorLevels (h : History) (ticks : List Nat) :
    (h.cursorLevels ticks).length = ticks.length := by
  have hfold : ∀ (ts : List Nat) (c : Cursor) (acc : List Bool),
      (ts.foldl (fun (c, acc) t => let c := h.advance t c; (c, c.level :: acc)) (c, acc)).2.length =
        ts.length + acc.length := by
    intro ts
    induction ts with
    | nil => simp
    | cons t ts ih =>
      intro c acc
      rw [List.foldl_cons, ih, List.length_cons, List.length_cons]
      omega
  simp [cursorLevels, hfold]

/-! ## Ticks in any order

A tick below one read before moves nothing: the cursor is already past every change at or before
it (`History.advance_of_count_le`). So the cursor's position is the count of the largest tick read
so far, and it reads the level there (`History.cursorLevels_eq_running_max`).
-/
/-- A cursor past every change at or before the tick stays where it is. -/
theorem advance_of_count_le {h : History} (hs : h.Sorted) {tick p : Nat} (hp : h.count tick ≤ p)
    (l : Bool) : h.advance tick ⟨p, l⟩ = ⟨p, l⟩ := by
  rw [advance]
  split
  · rename_i hlt
    have := mt (atOrBefore_iff hs tick p).1 (by omega)
    simp only [atOrBefore, Array.getElem?_eq_getElem hlt, decide_eq_true_eq] at this
    dsimp only
    rw [if_neg this]
  · rfl

/-- One read of a cursor that has passed the first `p` changes: it walks on to the count of the
tick, or stays when it is already past it. -/
theorem advance_levelAfter {h : History} (hs : h.Sorted) (tick p : Nat) :
    h.advance tick ⟨p, h.levelAfter p⟩ =
      ⟨max p (h.count tick), h.levelAfter (max p (h.count tick))⟩ := by
  rcases Nat.le_total p (h.count tick) with hle | hle
  · rw [advance_eq hs tick hle, Nat.max_eq_right hle]
  · rw [advance_of_count_le hs hle, Nat.max_eq_left hle]

theorem foldl_cursor_levels {h : History} (hs : h.Sorted) :
    ∀ (ticks : List Nat) (p : Nat) (acc : List Bool),
      (ticks.foldl (fun (c, acc) t => let c := h.advance t c; (c, c.level :: acc))
        (⟨p, h.levelAfter p⟩, acc)).2 =
      ((List.range ticks.length).map fun i =>
        h.levelAfter ((ticks.take (i + 1)).foldl (fun m t => max m (h.count t)) p)).reverse ++ acc
  | [], _, _ => rfl
  | t :: ts, p, acc => by
    rw [List.foldl_cons]
    dsimp only
    rw [advance_levelAfter hs, foldl_cursor_levels hs ts, List.length_cons, List.range_succ_eq_map,
      List.map_cons, List.map_map, List.reverse_cons, List.append_assoc]
    rfl

/-- The counts of the ticks read so far peak at the count of their largest tick. -/
theorem foldl_max_count (h : History) (l : List Nat) (a : Nat) :
    l.foldl (fun m t => max m (h.count t)) (h.count a) = h.count (l.foldl max a) := by
  induction l generalizing a with
  | nil => rfl
  | cons t l ih =>
    rw [List.foldl_cons, List.foldl_cons, ← ih]
    congr 1
    rcases Nat.le_total a t with hle | hle
    · rw [Nat.max_eq_right hle, Nat.max_eq_right (h.count_mono hle)]
    · rw [Nat.max_eq_left hle, Nat.max_eq_left (h.count_mono hle)]

/-- A fresh cursor reads at each step the level at the largest tick read so far. -/
theorem cursorLevels_eq_running_max {h : History} (hs : h.Sorted) (ticks : List Nat) :
    h.cursorLevels ticks =
      (List.range ticks.length).map fun i => h.levelAt ((ticks.take (i + 1)).foldl max 0) := by
  unfold cursorLevels
  have h0 := foldl_cursor_levels hs ticks 0 []
  rw [show h.levelAfter 0 = false from rfl] at h0
  rw [h0, List.append_nil, List.reverse_reverse]
  refine List.map_congr_left fun i hi => ?_
  -- the first tick read opens the running maximum, so it is a count like the later ones
  obtain ⟨t, ts, hts⟩ : ∃ t ts, ticks.take (i + 1) = t :: ts := by
    cases ticks with
    | nil => simp at hi
    | cons t ts => exact ⟨t, ts.take i, List.take_succ_cons⟩
  rw [hts, levelAt_eq hs, List.foldl_cons, List.foldl_cons, Nat.zero_max, Nat.zero_max,
    foldl_max_count]

/-- In a list in tick order, the changes at or before a tick are its first `countP` ones. -/
theorem filter_eq_take_countP {l : List (Nat × Bool)} (hs : l.Pairwise fun a b => a.1 ≤ b.1)
    (tick : Nat) : l.filter (·.1 ≤ tick) = l.take (l.countP (·.1 ≤ tick)) := by
  induction l with
  | nil => rfl
  | cons a l ih =>
    obtain ⟨ha, hs⟩ := List.pairwise_cons.1 hs
    by_cases hat : a.1 ≤ tick
    · rw [List.filter_cons_of_pos (by simpa using hat), List.countP_cons_of_pos (by simpa using hat),
        List.take_succ_cons, ih hs]
    · -- a change past the tick puts every later change past it too
      have hnone : ∀ c ∈ l, ¬ c.1 ≤ tick := fun c hc hle => hat (Nat.le_trans (ha c hc) hle)
      rw [List.filter_cons_of_neg (by simpa using hat), List.countP_cons_of_neg (by simpa using hat),
        List.filter_eq_nil_iff.2 (by simpa using hnone), List.countP_eq_zero.2 (by simpa using hnone),
        List.take_zero]

/-- On changes in tick order, the level at a tick is that of the last change at or before it, or
low when there is none. -/
theorem levelAt_eq_last {h : History} (hs : h.Sorted) (tick : Nat) :
    h.levelAt tick = ((h.changes.toList.filter (·.1 ≤ tick)).getLast?.map (·.2)).getD false := by
  have hle := count_le_size h tick
  rw [levelAt_eq hs, filter_eq_take_countP hs, List.getLast?_take]
  unfold count at hle ⊢
  cases hc : h.changes.toList.countP (·.1 ≤ tick) with
  | zero => rfl
  | succ i =>
    rw [hc] at hle
    simp [levelAfter, Array.getElem?_eq_getElem (show i < h.changes.size by omega)]

/-- The cursor against the lookup: a fresh cursor reads at each step the level at the largest tick
read so far, so on ticks that do not decrease it reads the level at each tick; and the level at a
tick is that of the last change at or before it, or low when there is none. -/
theorem cursorLevels_spec {h : History} (hs : h.Sorted) (ticks : List Nat) :
    h.cursorLevels ticks =
      (List.range ticks.length).map (fun i => h.levelAt ((ticks.take (i + 1)).foldl max 0)) ∧
    (ticks.Pairwise (· ≤ ·) → h.cursorLevels ticks = ticks.map h.levelAt) ∧
    ∀ tick, h.levelAt tick =
      ((h.changes.toList.filter (·.1 ≤ tick)).getLast?.map (·.2)).getD false :=
  ⟨cursorLevels_eq_running_max hs ticks, cursorLevels_eq hs, levelAt_eq_last hs⟩

theorem cursorLevels_spec_sample :
    (ofChanges [(10, true), (20, false), (20, true), (35, false)]).Sorted ∧
    ((ofChanges [(10, true), (20, false), (20, true), (35, false)]).cursorLevels [0, 20, 15, 40] =
      (List.range 4).map (fun i => (ofChanges [(10, true), (20, false), (20, true), (35, false)]).levelAt
        (([0, 20, 15, 40].take (i + 1)).foldl max 0)) ∧
    ([0, 20, 15, 40].Pairwise (· ≤ ·) →
      (ofChanges [(10, true), (20, false), (20, true), (35, false)]).cursorLevels [0, 20, 15, 40] =
        [0, 20, 15, 40].map (ofChanges [(10, true), (20, false), (20, true), (35, false)]).levelAt) ∧
    ∀ tick, (ofChanges [(10, true), (20, false), (20, true), (35, false)]).levelAt tick =
      (((ofChanges [(10, true), (20, false), (20, true), (35, false)]).changes.toList.filter
        (·.1 ≤ tick)).getLast?.map (·.2)).getD false) :=
  ⟨by decide, cursorLevels_spec (by decide) _⟩

end PinWave.History
