import PinWave.Proofs.Wave.File
/-!
# Writing a wave that was read

Every wave the reader builds has the same shape (`WaveFile.Parsed`): no staged bits, metadata
that can be written back, and a hardware path of separated components taken from one line. The
shape holds of the wave the reader starts from and survives each line (`readLine_parsed`), so it
holds of every wave read (`parse_parsed`). Writing such a wave and reading it again therefore
changes nothing but the hardware path, which comes back as the path reader makes of its own text.
That text is trimmed before it is cut, so a component with a blank at the outer end of the path
loses it: a wave read from text comes back from its own text exactly when its path's text has no
blank at either end.

## Main definitions
* `WaveFile.Parsed`: the shape of every wave read from text.

## Main statements
* `WaveFile.parse_parsed`: every wave read from text has that shape.
* `WaveFile.parse_render_parse_iff`: when a wave read from text comes back from its own text.
-/

namespace PinWave.WaveFile

open Text

/-- The shape of every wave read from text: no staged bits, a hardware path of separated
components with no line feed, and metadata that can be written. -/
structure Parsed (w : Wave) : Prop where
  mask : w.mask = 0
  unmask : w.unmask = 0
  hardware : ∀ hw ∈ w.hardware, hw.Separated ∧ '\n' ∉ hw.render.toList
  metadata : w.metadata.Writable

theorem parsed_make (vector : List UInt64) (strobe : Float) : Parsed (Wave.make vector strobe none) :=
  ⟨rfl, rfl, by simp [Wave.make], ⟨by simp [Wave.make, Metadata.empty], by simp [Wave.make, Metadata.empty]⟩⟩

/-- The path read from a text with no line feed writes a text with no line feed: its characters
are the separators and characters of the text. -/
theorem newline_not_mem_render_parse {s : String} (hs : '\n' ∉ s.toList) :
    '\n' ∉ (HwPath.parse s).render.toList := by
  intro hn
  rw [HwPath.toList_render] at hn
  rcases mem_intercalate hn with h | ⟨l, hl, hnl⟩
  · cases h
  · obtain ⟨p, hp, rfl⟩ := List.mem_map.1 hl
    exact hs ((HwPath.mem_parse hp).2 '\n' hnl).1

/-- One line keeps the shape: a strobe line changes no field of the wave, a hardware line reads
its path from part of the line, and any other key line sets an entry cut from the trimmed line,
so its key is a trim with no colon and its value ends where the line does. -/
theorem readLine_parsed {st st' : Wave × Option Float} {n : ℕ} {raw : String}
    (hst : Parsed st.1) (hraw : '\n' ∉ raw.toList) (h : readLine st n raw = .ok st') :
    Parsed st'.1 := by
  unfold readLine at h
  dsimp only at h
  split at h
  · rename_i body hline
    split at h
    · cases h
      exact hst
    · rename_i k v hkv
      obtain ⟨hbody, hk⟩ := splitKey_eq_some hkv
      -- every character of the key and the value is a character of the raw line
      have hsub : ∀ c ∈ k ++ v, c ≠ '\n' := by
        intro c hc hn
        subst hn
        refine hraw ((trimChars_sublist _).subset ?_)
        rw [hline, hbody]
        simp only [List.mem_append] at hc
        rcases hc with hc | hc <;> simp [hc]
      have hv : '\n' ∉ v := fun hn => hsub '\n' (List.mem_append_right _ hn) rfl
      split at h
      · split at h
        · cases h
          exact hst
        · cases h
      · split at h
        · cases h
          refine ⟨hst.mask, hst.unmask, fun hw hhw => ?_, hst.metadata⟩
          cases hhw
          refine ⟨HwPath.separated_parse _, newline_not_mem_render_parse ?_⟩
          rwa [String.toList_ofList]
        · rename_i hs hh
          cases h
          refine ⟨hst.mask, hst.unmask, hst.hardware, hst.metadata.insert ⟨?_, ?_, ?_, hs, hh, ?_, ?_⟩⟩
          · simp only [trim, String.toList_ofList, trimChars_idem]
          · simpa using fun hc => hk ((trimChars_sublist k).subset hc)
          · simpa using fun hc => hsub '\n' (List.mem_append_left _ ((trimChars_sublist k).subset hc)) rfl
          · simpa using hv
          · -- the value ends where the trimmed line ends
            simp only [String.toList_ofList]
            have htrim := trimChars_idem raw.toList
            have happ : '/' :: '/' :: body = ('/' :: '/' :: (k ++ [':'])) ++ v := by simp [hbody]
            rw [hline, happ] at htrim
            exact trimEnd_of_trimChars_eq_append htrim
  · cases h
    exact hst

/-- Every run of lines keeps the shape. -/
theorem readLines_parsed {st st' : Wave × Option Float} {ls : List (ℕ × String)}
    (hst : Parsed st.1) (hls : ∀ p ∈ ls, '\n' ∉ p.2.toList) (h : readLines st ls = .ok st') :
    Parsed st'.1 := by
  induction ls generalizing st with
  | nil =>
    cases h
    exact hst
  | cons p ls ih =>
    obtain ⟨n, l⟩ := p
    simp only [readLines, bind, Except.bind] at h
    cases hl : readLine st n l with
    | error e =>
      rw [hl] at h
      cases h
    | ok st'' =>
      rw [hl] at h
      exact ih (readLine_parsed hst (hls _ List.mem_cons_self) hl)
        (fun q hq => hls q (List.mem_cons_of_mem _ hq)) h

/-- Every wave read from text has the shape of `Parsed`. -/
theorem parse_parsed {t : String} {w : Wave} (h : parse t = .ok w) : Parsed w := by
  unfold parse at h
  split at h
  · cases h
  · rename_i first rest hlines
    split at h
    · cases h
    · rename_i vector _
      simp only [bind, Except.bind] at h
      split at h
      · cases h
      · rename_i st hst
        cases h
        -- the lines after the first are lines of the text, so none holds a line feed
        have hls : ∀ p ∈ (rest.zipIdx.map fun q => (q.2 + 2, q.1)), '\n' ∉ p.2.toList := by
          intro p hp
          have hmem : p.2 ∈ ((rest.zipIdx.map fun q => (q.2 + 2, q.1)).map Prod.snd) :=
            List.mem_map_of_mem hp
          rw [map_snd_zipIdx _ _ _ fun _ => rfl] at hmem
          exact newline_not_mem_lines (hlines ▸ List.mem_cons_of_mem _ hmem)
        have hp := readLines_parsed (parsed_make vector 0.0) hls hst
        exact ⟨hp.mask, hp.unmask, hp.hardware, hp.metadata⟩

/-- A wave read from text whose strobe is not NaN comes back from its own text exactly when the
text of its hardware path has no blank at either end. -/
theorem parse_render_parse_iff {t : String} {w : Wave} (ht : parse t = .ok w)
    (hs : w.strobe.isNaN = false) :
    parse (render w) = .ok w ↔ ∀ hw ∈ w.hardware, Text.trim hw.render = hw.render := by
  have hp := parse_parsed ht
  rw [parse_render_eq w hs (fun hw h => (hp.hardware hw h).2) hp.metadata]
  obtain ⟨vector, strobe, hardware, mask, unmask, md⟩ := w
  obtain ⟨rfl, rfl⟩ : mask = 0 ∧ unmask = 0 := ⟨hp.mask, hp.unmask⟩
  cases hardware with
  | none => simp
  | some hw =>
    have hsep := (hp.hardware hw rfl).1
    simp only [Option.map_some, Except.ok.injEq, Wave.mk.injEq, Option.some.injEq, true_and,
      and_true, Option.mem_def, forall_eq']
    rw [HwPath.parse_render_iff hw hsep, trim_eq_self_iff]

theorem parse_render_parse_sample :
    ∃ w, parse "7,@\n//STROBE_PICOSECONDS:2.5\n//HARDWARE:top/dut\n//VERSION:1\n" = .ok w ∧
      w.strobe.isNaN = false ∧ parse (render w) = .ok w := by
  have hhw : (parse "7,@\n//STROBE_PICOSECONDS:2.5\n//HARDWARE:top/dut\n//VERSION:1\n").toOption.map
      (·.hardware) = some (some ⟨["top", "dut"]⟩) := by decide
  have hs : (parse "7,@\n//STROBE_PICOSECONDS:2.5\n//HARDWARE:top/dut\n//VERSION:1\n").toOption.map
      (·.strobe.isNaN) = some false := by decide
  cases h : parse "7,@\n//STROBE_PICOSECONDS:2.5\n//HARDWARE:top/dut\n//VERSION:1\n" with
  | error e =>
    rw [h] at hhw
    cases hhw
  | ok w =>
    rw [h] at hhw hs
    simp only [Except.toOption, Option.map_some, Option.some.injEq] at hhw hs
    refine ⟨w, rfl, hs, (parse_render_parse_iff h hs).2 ?_⟩
    rw [hhw]
    decide

theorem reread_trims_hardware :
    ∃ w, parse "\n//STROBE_PICOSECONDS:1.0\n//HARDWARE:/ a\n" = .ok w ∧
      w.strobe.isNaN = false ∧ w.hardware = some ⟨[" a"]⟩ ∧
      parse (render w) = .ok { w with hardware := some ⟨["a"]⟩ } := by
  have hhw : (parse "\n//STROBE_PICOSECONDS:1.0\n//HARDWARE:/ a\n").toOption.map (·.hardware) =
      some (some ⟨[" a"]⟩) := by decide
  have hs : (parse "\n//STROBE_PICOSECONDS:1.0\n//HARDWARE:/ a\n").toOption.map
      (·.strobe.isNaN) = some false := by decide
  cases h : parse "\n//STROBE_PICOSECONDS:1.0\n//HARDWARE:/ a\n" with
  | error e =>
    rw [h] at hhw
    cases hhw
  | ok w =>
    rw [h] at hhw hs
    simp only [Except.toOption, Option.map_some, Option.some.injEq] at hhw hs
    have hp := parse_parsed h
    refine ⟨w, rfl, hs, hhw, ?_⟩
    rw [parse_render_eq w hs (fun hw h => (hp.hardware hw h).2) hp.metadata, hhw, hp.mask,
      hp.unmask]
    have hparse : HwPath.parse (HwPath.render ⟨[" a"]⟩) = ⟨["a"]⟩ := by decide
    simp only [Option.map_some, hparse]

end PinWave.WaveFile
