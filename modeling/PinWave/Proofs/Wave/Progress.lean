import PinWave.Proofs.Convert.Files
/-!
# Progress while writing

A long vector reports progress from inside the loop that writes its words: after the word that
brings the count to a multiple of the step, and once more after the loop unless the length is
itself a multiple, so the last call always gives the whole length and none is made twice. The
loop writes the same line as the plain writer (`VectorLine.encodeWithProgress_fst`), and the calls
it makes are the multiples of the step up to the length, then the length when it is no multiple
(`VectorLine.encodeWithProgress_snd`). Writing the waves of several groups passes each group's
calls on, tagged with the group, group after group.

## Main statements
* `write_progress`: the text and the progress calls of writing a wave, and the calls made
  writing the waves of several groups.
-/

namespace PinWave

namespace VectorLine

/-- Past the first word, the loop writes a comma and the field of each word. -/
theorem encodeLoop_fst {i : Nat} (hi : i ≠ 0) (report : Bool) (total : Nat)
    (prev : Option UInt64) (vs : List UInt64) (out : String) (calls : List (Nat × Nat)) :
    (encodeLoop report total i prev vs (out, calls)).1 =
      out ++ String.join ((fields prev vs).map ("," ++ ·)) := by
  induction vs generalizing i prev out calls with
  | nil => simp [encodeLoop, fields]
  | cons v vs ih =>
    rw [encodeLoop, if_neg hi, ih (Nat.succ_ne_zero i)]
    simp [fields, String.append_assoc]

/-- The loop from index `i` on reports, in order, the counts it reaches that are multiples of
`progressStep`, when it reports at all. -/
theorem encodeLoop_snd (report : Bool) (total i : Nat) (prev : Option UInt64) (vs : List UInt64)
    (out : String) (calls : List (Nat × Nat)) :
    (encodeLoop report total i prev vs (out, calls)).2 = calls ++
      ((List.range' (i + 1) vs.length).filter fun k => report && k % progressStep == 0).map
        (·, total) := by
  induction vs generalizing i prev out calls with
  | nil => simp [encodeLoop]
  | cons v vs ih =>
    rw [encodeLoop, ih, List.length_cons, List.range'_succ, List.filter_cons]
    split <;> simp_all

theorem intercalate_eq_join (f : String) (fs : List String) :
    ",".intercalate (f :: fs) = f ++ String.join (fs.map ("," ++ ·)) := by
  induction fs generalizing f with
  | nil => simp
  | cons g fs ih =>
    rw [String.intercalate_cons_cons, ih]
    simp [String.append_assoc]

/-- The loop writes the line the plain writer writes. -/
theorem encodeWithProgress_fst (vs : List UInt64) : (encodeWithProgress vs).1 = encode vs := by
  cases vs with
  | nil => rfl
  | cons v vs =>
    simp only [encodeWithProgress, encodeLoop, if_pos, encodeLoop_fst (Nat.succ_ne_zero 0), encode,
      fields, intercalate_eq_join]
    simp

/-- Among the counts `1` to `n`, the multiples of `progressStep` are its first
`n / progressStep` multiples. -/
theorem filter_range'_mod (n : Nat) :
    (List.range' 1 n).filter (fun k => k % progressStep == 0) =
      (List.range' 1 (n / progressStep)).map (progressStep * ·) := by
  induction n with
  | zero => rfl
  | succ n ih =>
    rw [List.range'_concat, List.filter_append, ih]
    by_cases h : (1 + n) % progressStep = 0
    · -- the new count is the next multiple
      have hq : (n + 1) / progressStep = n / progressStep + 1 := by
        simp only [progressStep] at h ⊢
        omega
      rw [hq, List.range'_concat, List.map_append]
      simp only [progressStep] at h ⊢
      simp [h]
      omega
    · have hq : (n + 1) / progressStep = n / progressStep := by
        simp only [progressStep] at h ⊢
        omega
      simp [h, hq]

theorem progressMarks_eq (n : Nat) :
    progressMarks n = if progressStep < n then
      (List.range' 1 (n / progressStep)).map (fun k => (progressStep * k, n)) ++
        (if n % progressStep = 0 then [] else [(n, n)])
    else [] := by
  unfold progressMarks
  split
  · rw [List.range'_eq_map_range, List.map_map]
    congr 2
    funext k
    simp only [Function.comp_apply, Prod.mk.injEq, and_true]
    rw [Nat.add_comm, Nat.mul_comm]
  · rfl

/-- The loop and its tail make the calls of `progressMarks`. -/
theorem encodeWithProgress_snd (vs : List UInt64) :
    (encodeWithProgress vs).2 = progressMarks vs.length := by
  rw [progressMarks_eq]
  unfold encodeWithProgress
  by_cases h : progressStep < vs.length
  · simp only [h, decide_true, Bool.true_and, encodeLoop_snd, List.nil_append, if_true]
    rw [filter_range'_mod, List.map_map]
    split <;> simp_all [Function.comp_def]
  · simp [h, encodeLoop_snd]

end VectorLine

theorem WaveFile.renderWithProgress_eq (w : Wave) :
    WaveFile.renderWithProgress w = (WaveFile.render w, VectorLine.progressMarks w.length) := by
  simp only [WaveFile.renderWithProgress, WaveFile.render, VectorLine.encodeWithProgress_fst,
    VectorLine.encodeWithProgress_snd, Wave.length]

/-- Each group's progress calls are passed on tagged with the group, groups in order. -/
theorem go_marks {tag : String} {d d' : Directory} {names names' : List String}
    {marks marks' : List (HwPath × ℕ × ℕ)} {ws : List (HwPath × Wave)}
    (h : writeWavesInOrder.go tag d names marks ws = (d', .ok (names', marks'))) :
    marks' = marks ++ ws.flatMap fun p => (VectorLine.progressMarks p.2.length).map (p.1, ·) := by
  induction ws generalizing d names marks with
  | nil =>
    simp only [writeWavesInOrder.go, Prod.mk.injEq, Except.ok.injEq] at h
    rw [← h.2.2, List.flatMap_nil, List.append_nil]
  | cons p ws ih =>
    unfold writeWavesInOrder.go at h
    dsimp only at h
    split at h
    · simp at h
    · rw [ih h, List.flatMap_cons, List.append_assoc]

/-- Writing a wave writes the text the plain writer writes, and reports progress only for more
than 10000 words: after every 10000th word, then the length unless it is a multiple of 10000.
Writing the waves of several groups passes each wave's calls on, tagged with its group, groups
in order. -/
theorem write_progress :
    (∀ w : Wave, (WaveFile.renderWithProgress w).1 = WaveFile.render w ∧
      (WaveFile.renderWithProgress w).2 =
        if 10000 < w.length then
          (List.range' 1 (w.length / 10000)).map (fun k => (10000 * k, w.length)) ++
            (if w.length % 10000 = 0 then [] else [(w.length, w.length)])
        else []) ∧
    ∀ (d d' : Directory) (waves : List (HwPath × Wave)) (tag : String) names marks,
      writeWavesInOrder d waves tag = (d', .ok (names, marks)) →
        marks = waves.flatMap fun p => (WaveFile.renderWithProgress p.2).2.map (p.1, ·) := by
  refine ⟨fun w => ?_, fun d d' waves tag names marks h => ?_⟩
  · rw [WaveFile.renderWithProgress_eq, VectorLine.progressMarks_eq]
    exact ⟨rfl, rfl⟩
  · rw [go_marks (go_of_writeWavesInOrder tag h), List.nil_append]
    simp only [WaveFile.renderWithProgress_eq]

/-- Two groups, the first with a wave of 20001 words and the second with one of 10001: writing
them passes on the first wave's calls at 10000, 20000 and its length, then the second wave's at
10000 and its length, each tagged with its group. -/
theorem write_progress_sample :
    ∃ d', writeWavesInOrder Directory.empty
        [(⟨["A", "x"]⟩, ⟨List.replicate 20001 0, 1.0, none, 0, 0, ⟨[]⟩⟩),
          (⟨["B", "y"]⟩, ⟨List.replicate 10001 1, 1.0, none, 0, 0, ⟨[]⟩⟩)] "t" =
        (d', .ok (["t_x.glue", "t_y.glue"],
          [(⟨["A", "x"]⟩, 10000, 20001), (⟨["A", "x"]⟩, 20000, 20001), (⟨["A", "x"]⟩, 20001, 20001),
            (⟨["B", "y"]⟩, 10000, 10001), (⟨["B", "y"]⟩, 10001, 10001)])) ∧
      [((⟨["A", "x"]⟩ : HwPath), 10000, 20001), (⟨["A", "x"]⟩, 20000, 20001),
          (⟨["A", "x"]⟩, 20001, 20001), (⟨["B", "y"]⟩, 10000, 10001), (⟨["B", "y"]⟩, 10001, 10001)] =
        [((⟨["A", "x"]⟩ : HwPath), (⟨List.replicate 20001 0, 1.0, none, 0, 0, ⟨[]⟩⟩ : Wave)),
            (⟨["B", "y"]⟩, ⟨List.replicate 10001 1, 1.0, none, 0, 0, ⟨[]⟩⟩)].flatMap
          fun p => (WaveFile.renderWithProgress p.2).2.map (p.1, ·) := by
  -- the files' texts are never looked at: only the names and the calls are computed
  have hr : (writeWavesInOrder Directory.empty
      [(⟨["A", "x"]⟩, ⟨List.replicate 20001 0, 1.0, none, 0, 0, ⟨[]⟩⟩),
        (⟨["B", "y"]⟩, ⟨List.replicate 10001 1, 1.0, none, 0, 0, ⟨[]⟩⟩)] "t").2.toOption =
      some (["t_x.glue", "t_y.glue"],
        [(⟨["A", "x"]⟩, 10000, 20001), (⟨["A", "x"]⟩, 20000, 20001), (⟨["A", "x"]⟩, 20001, 20001),
          (⟨["B", "y"]⟩, 10000, 10001), (⟨["B", "y"]⟩, 10001, 10001)]) := by
    decide +kernel
  generalize hw : writeWavesInOrder Directory.empty _ "t" = r at hr
  obtain ⟨d', r⟩ := r
  cases r with
  | error e => cases hr
  | ok v =>
    cases hr
    exact ⟨d', rfl, write_progress.2 _ _ _ _ _ _ hw⟩

end PinWave
