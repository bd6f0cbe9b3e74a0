import PinWave.Wave.File
import PinWave.Proofs.Wave.Vector
import PinWave.Proofs.Hardware.Path
/-!
# Reading a wave file back

A wave file is written as lines: the vector, the strobe period, the hardware path if the wave
has one, then one `//KEY:value` line per metadata entry. Reading cuts the text into lines, reads
the vector from the first and then each `//KEY:value` line in turn, trimming the line and the
key. Each step is stated here on its own (`readLine_strobe`, `readLine_hardware`,
`readLine_entry`) and the run over the written lines is assembled from them: a wave whose
strobe is not NaN and whose metadata can be written reads back with its vector, strobe and
metadata, its staged bits cleared, and its hardware path as the path reader makes of the
written text.

## Main definitions
* `WaveFile.keyLine`, `WaveFile.renderLines`: the lines of a written wave.
* `Metadata.Writable`: metadata whose entries each survive a line of their own.

## Main statements
* `WaveFile.parse_render_eq`: what reading a written wave gives.
* `WaveFile.parse_render_of_writable`: a wave that can be written reads back.
-/

namespace PinWave

open Text

/-- A metadata entry that can be written as a `//KEY:value` line and read back: a key that is its
own trim, holds neither `:` nor a line feed and is not a reserved key, and a value with no line
feed and no blank at its end. -/
structure Metadata.EntryWritable (e : String × String) : Prop where
  key_trim : Text.trim e.1 = e.1
  key_colon : ':' ∉ e.1.toList
  key_newline : '\n' ∉ e.1.toList
  key_strobe : e.1 ≠ WaveFile.strobeKey
  key_hardware : e.1 ≠ WaveFile.hardwareKey
  value_newline : '\n' ∉ e.2.toList
  value_end : trimEnd e.2.toList = e.2.toList

/-- Metadata whose entries can each be written on a line of their own and read back, under
distinct keys. -/
structure Metadata.Writable (m : Metadata) : Prop where
  nodup : (m.entries.map Prod.fst).Nodup
  entry : ∀ e ∈ m.entries, Metadata.EntryWritable e

/-- A new key goes last. -/
theorem Metadata.insert_of_not_mem {m : Metadata} {k : String} (v : String)
    (h : ∀ e ∈ m.entries, e.1 ≠ k) : m.insert k v = ⟨m.entries ++ [(k, v)]⟩ := by
  unfold Metadata.insert
  rw [if_neg]
  simp only [List.any_eq_true, beq_iff_eq, not_exists, not_and]
  exact fun e he => h e he

/-- Setting a writable entry keeps metadata writable: the keys stay distinct, and every entry is
an old one or the new one. -/
theorem Metadata.Writable.insert {m : Metadata} (hm : m.Writable) {k v : String}
    (hkv : Metadata.EntryWritable (k, v)) : (m.insert k v).Writable := by
  by_cases hk : ∀ e ∈ m.entries, e.1 ≠ k
  · rw [Metadata.insert_of_not_mem v hk]
    refine ⟨?_, fun e he => ?_⟩
    · rw [List.map_append, List.nodup_append]
      refine ⟨hm.nodup, by simp, ?_⟩
      simp only [List.mem_map, List.map_cons, List.map_nil, List.mem_singleton]
      rintro _ ⟨e, he, rfl⟩ _ rfl
      exact hk e he
    · rcases List.mem_append.1 he with he | he
      · exact hm.entry e he
      · rw [List.mem_singleton.1 he]
        exact hkv
  · -- the key is there already: it keeps its place and takes the new value
    have hany : m.entries.any (·.1 == k) = true := by
      simp only [List.any_eq_true, beq_iff_eq]
      simpa using hk
    unfold Metadata.insert
    rw [if_pos hany]
    have hkeys : (m.entries.map fun e => if e.1 == k then (k, v) else e).map Prod.fst =
        m.entries.map Prod.fst := by
      rw [List.map_map]
      refine List.map_congr_left fun e _ => ?_
      by_cases he : e.1 = k <;> simp [he]
    refine ⟨hkeys ▸ hm.nodup, fun e he => ?_⟩
    obtain ⟨f, hf, rfl⟩ := List.mem_map.1 he
    split
    · exact hkv
    · exact hm.entry f hf

namespace WaveFile

/-! ## The lines of a written wave -/

/-- A `//KEY:value` line, without its line feed. -/
def keyLine (k v : String) : List Char := ("//" ++ k ++ ":" ++ v).toList

theorem keyLine_eq (k v : String) : keyLine k v = '/' :: '/' :: (k.toList ++ ':' :: v.toList) := by
  simp [keyLine]

/-- The lines of a written wave, each without its line feed. -/
def renderLines (w : Wave) : List (List Char) :=
  (VectorLine.encode w.vector).toList :: keyLine strobeKey (strobeLayout.render w.strobe) ::
    ((w.hardware.toList.map fun hw => keyLine hardwareKey hw.render) ++
      w.metadata.entries.map fun e => keyLine e.1 e.2)

theorem toList_render (w : Wave) :
    (render w).toList = (renderLines w).flatMap (· ++ ['\n']) := by
  cases h : w.hardware <;> simp [render, renderLines, keyLine, h, List.flatMap_map]

theorem lines_render {w : Wave} (h : ∀ l ∈ renderLines w, '\n' ∉ l) :
    Text.lines (render w) = (renderLines w).map fun l => String.ofList (dropReturn l) := by
  rw [Text.lines, toList_render, lineChars_ended h, List.map_map]
  rfl

/-! ## One line at a time -/

/-- A `//KEY:value` line is trimmed at the end of its value only. -/
theorem trimChars_keyLine (k v : String) :
    trimChars (dropReturn (keyLine k v)) = '/' :: '/' :: (k.toList ++ ':' :: trimEnd v.toList) := by
  rw [trimChars_dropReturn, keyLine_eq]
  have hl : ('/' :: '/' :: (k.toList ++ [':'])).getLast? = some ':' := by
    rw [← List.cons_append, ← List.cons_append, List.getLast?_append]
    rfl
  have h := @trimChars_prefix_append ('/' :: '/' :: (k.toList ++ [':']))
    (fun c hc => by cases hc; decide) (fun c hc => by rw [hl] at hc; cases hc; decide)
    (by simp) v.toList
  simpa using h

/-- A key with no colon is cut off at the colon after it. -/
theorem splitKey_append {k : List Char} (hk : ':' ∉ k) (u : List Char) :
    splitKey (k ++ ':' :: u) = some (k, u) := by
  unfold splitKey
  rw [List.splitOn_append_cons_self_of_not_mem hk]
  obtain ⟨p, ps, hps⟩ := List.exists_cons_of_ne_nil (List.splitOn_ne_nil ':' u)
  rw [hps]
  simp

/-- Where the key is cut off: at the first colon, which the key does not hold. -/
theorem splitKey_eq_some {body k v : List Char} (h : splitKey body = some (k, v)) :
    body = k ++ ':' :: v ∧ ':' ∉ k := by
  unfold splitKey at h
  obtain ⟨k', p, ps, hsplit⟩ : ∃ k' p ps, body.splitOn ':' = k' :: p :: ps := by
    cases hs : body.splitOn ':' with
    | nil => rw [hs] at h; cases h
    | cons k' ps =>
      cases ps with
      | nil => rw [hs] at h; cases h
      | cons p ps => exact ⟨k', p, ps, rfl⟩
  rw [hsplit] at h
  cases h
  have hk : k ∈ body.splitOn ':' := by rw [hsplit]; exact List.mem_cons_self
  have hbody : body = k ++ ':' :: [':'].intercalate (p :: ps) := by
    have : [':'].intercalate (body.splitOn ':') = body := List.intercalate_splitOn ':'
    rw [hsplit, List.intercalate_cons_cons] at this
    simpa using this.symm
  refine ⟨?_, fun hc => (mem_of_mem_splitOn hk hc).2 rfl⟩
  rw [hbody]
  simp

theorem readLine_strobe (st : Wave × Option Float) (n : ℕ) (v : String) {x : Float}
    (hx : Decimal.readFloat? (Text.trim v) = some x) :
    readLine st n (String.ofList (dropReturn (keyLine strobeKey v))) = .ok (st.1, some x) := by
  unfold readLine
  simp only [String.toList_ofList, trimChars_keyLine]
  rw [splitKey_append (by decide)]
  dsimp only
  rw [if_pos (by decide), trimChars_trimEnd]
  simp only [Text.trim] at hx
  rw [hx]

theorem readLine_hardware (st : Wave × Option Float) (n : ℕ) (v : String) :
    readLine st n (String.ofList (dropReturn (keyLine hardwareKey v))) =
      .ok ({ st.1 with hardware := some (HwPath.parse v) }, st.2) := by
  unfold readLine
  simp only [String.toList_ofList, trimChars_keyLine]
  rw [splitKey_append (by decide)]
  dsimp only
  rw [if_neg (by decide), if_pos (by decide)]
  simp only [HwPath.parse, String.toList_ofList, trimChars_trimEnd]

theorem readLine_entry (st : Wave × Option Float) (n : ℕ) {k v : String} (hk : ':' ∉ k.toList)
    (htk : Text.trim k = k) (hs : k ≠ strobeKey) (hh : k ≠ hardwareKey) :
    readLine st n (String.ofList (dropReturn (keyLine k v))) =
      .ok ({ st.1 with metadata := st.1.metadata.insert k (String.ofList (trimEnd v.toList)) },
        st.2) := by
  unfold readLine
  simp only [String.toList_ofList, trimChars_keyLine]
  rw [splitKey_append hk]
  dsimp only
  have hkey : String.ofList (trimChars k.toList) = k := htk
  rw [hkey, if_neg hs, if_neg hh]

/-! ## A run of lines -/

theorem readLines_cons_ok {st st' : Wave × Option Float} {n : ℕ} {l : String}
    (h : readLine st n l = .ok st') (rest : List (ℕ × String)) :
    readLines st ((n, l) :: rest) = readLines st' rest := by
  simp [readLines, h, bind, Except.bind]

/-- The numbers the reader gives the lines do not change the lines. -/
theorem map_snd_zipIdx (l : List String) (k : ℕ) (f : String × ℕ → ℕ × String)
    (hf : ∀ p, (f p).2 = p.1) : ((l.zipIdx k).map f).map Prod.snd = l := by
  induction l generalizing k with
  | nil => rfl
  | cons x l ih => simp [List.zipIdx_cons, hf, ih]

/-- Metadata lines read in order append their entries, each key new and each value kept whole:
the step is `readLine_entry`, and the keys stay distinct along the run. -/
theorem readLines_entries (st : Wave × Option Float) (es : List (String × String))
    (ls : List (ℕ × String))
    (hls : ls.map Prod.snd = es.map fun e => String.ofList (dropReturn (keyLine e.1 e.2)))
    (hw : Metadata.Writable ⟨st.1.metadata.entries ++ es⟩) :
    readLines st ls = .ok ({ st.1 with metadata := ⟨st.1.metadata.entries ++ es⟩ }, st.2) := by
  induction es generalizing st ls with
  | nil =>
    rw [List.map_nil, List.map_eq_nil_iff] at hls
    subst hls
    simp [readLines]
  | cons e es ih =>
    obtain ⟨⟨n, l⟩, ls', rfl, hl, hls'⟩ := List.map_eq_cons_iff.1 hls
    dsimp only at hl
    subst hl
    have he : e ∈ st.1.metadata.entries ++ e :: es := by simp
    have hnew : ∀ f ∈ st.1.metadata.entries, f.1 ≠ e.1 := by
      intro f hf hfe
      have := hw.nodup
      simp only [List.map_append, List.map_cons] at this
      exact (List.nodup_append.1 this).2.2 _ (List.mem_map_of_mem hf) _ List.mem_cons_self hfe
    have hew := hw.entry e he
    rw [readLines_cons_ok (readLine_entry st n hew.key_colon hew.key_trim hew.key_strobe
      hew.key_hardware), hew.value_end, String.ofList_toList,
      Metadata.insert_of_not_mem _ hnew]
    have h := ih ({ st.1 with metadata := ⟨st.1.metadata.entries ++ [e]⟩ }, st.2) ls' hls'
      (by simpa using hw)
    simpa using h

/-! ## A written wave read back -/

/-- No line of a written wave holds a line feed when neither its hardware text nor its metadata
does: the vector and the strobe are written without blanks. -/
theorem newline_not_mem_renderLines {w : Wave}
    (hhw : ∀ hw ∈ w.hardware, '\n' ∉ hw.render.toList) (hmd : w.metadata.Writable) :
    ∀ l ∈ renderLines w, '\n' ∉ l := by
  intro l hl hn
  simp only [renderLines, List.mem_cons, List.mem_append, List.mem_map, Option.mem_toList] at hl
  rcases hl with rfl | rfl | ⟨hw, hw', rfl⟩ | ⟨e, he, rfl⟩
  · exact absurd (VectorLine.isBlank_encode w.vector _ hn) (by decide)
  · rw [keyLine_eq] at hn
    simp only [List.mem_cons, List.mem_append] at hn
    rcases hn with h | h | h | h | h
    · cases h
    · cases h
    · revert h
      decide
    · cases h
    · exact absurd (Decimal.isBlank_render_tagged w.strobe _ h) (by decide)
  · rw [keyLine_eq] at hn
    simp only [List.mem_cons, List.mem_append] at hn
    rcases hn with h | h | h | h | h
    · cases h
    · cases h
    · revert h
      decide
    · cases h
    · exact hhw hw hw' h
  · rw [keyLine_eq] at hn
    simp only [List.mem_cons, List.mem_append] at hn
    rcases hn with h | h | h | h | h
    · cases h
    · cases h
    · exact (hmd.entry e he).key_newline h
    · cases h
    · exact (hmd.entry e he).value_newline h

/-- A written wave whose strobe is not NaN and whose metadata can be written reads back with its
vector, strobe and metadata, its staged bits cleared, and its hardware path as the path reader
makes of the written text. -/
theorem parse_render_eq (w : Wave) (hs : w.strobe.isNaN = false)
    (hhw : ∀ hw ∈ w.hardware, '\n' ∉ hw.render.toList) (hmd : w.metadata.Writable) :
    parse (render w) = .ok { w with
      mask := 0, unmask := 0, hardware := w.hardware.map fun hw => HwPath.parse hw.render } := by
  have hx : Decimal.readFloat? (Text.trim (strobeLayout.render w.strobe)) = some w.strobe := by
    rw [strobeLayout, Text.trim, trimChars_of_forall (Decimal.isBlank_render_tagged w.strobe),
      String.ofList_toList]
    exact Decimal.readFloat?_render_tagged w.strobe hs
  rw [parse, lines_render (newline_not_mem_renderLines hhw hmd)]
  simp only [renderLines, List.map_cons]
  rw [VectorLine.decode_dropReturn, String.ofList_toList, VectorLine.decode_encode]
  simp only [bind, Except.bind]
  -- the lines after the vector: the strobe, the hardware path if any, the metadata
  generalize hls : List.map (fun x : String × ℕ => (x.2 + 2, x.1)) _ = ls
  have hsnd := congrArg (List.map Prod.snd) hls
  rw [map_snd_zipIdx _ _ _ fun _ => rfl] at hsnd
  obtain ⟨⟨n, l⟩, ls', rfl, hl, hls'⟩ := List.map_eq_cons_iff.1 hsnd.symm
  dsimp only at hl
  subst hl
  rw [readLines_cons_ok (readLine_strobe _ n _ hx)]
  obtain ⟨vec, strobe, hardware, mask, unmask, ⟨es⟩⟩ := w
  dsimp only at hls' hmd ⊢
  have hmd' : Metadata.Writable ⟨Metadata.empty.entries ++ es⟩ := by simpa [Metadata.empty] using hmd
  cases hardware with
  | none =>
    simp only [Option.toList_none, List.map_nil, List.nil_append, List.map_map] at hls'
    rw [readLines_entries _ es ls' (by simpa [Function.comp_def] using hls') hmd']
    simp [Wave.make, Metadata.empty, pure, Except.pure]
  | some hw =>
    simp only [Option.toList_some, List.map_cons, List.map_nil, List.cons_append,
      List.nil_append, List.map_map] at hls'
    obtain ⟨⟨n', l'⟩, ls'', rfl, hl', hls''⟩ := List.map_eq_cons_iff.1 hls'
    dsimp only at hl'
    subst hl'
    rw [readLines_cons_ok (readLine_hardware _ n' _)]
    rw [readLines_entries _ es ls'' (by simpa [Function.comp_def] using hls'') hmd']
    simp [Wave.make, Metadata.empty, pure, Except.pure]

/-- A wave whose strobe is not NaN, whose hardware path and metadata can be written on lines of
their own reads back with its vector, strobe, hardware path and metadata, in order, and its staged
bits cleared; a written vector line on its own reads back as well. -/
theorem parse_render_of_writable (w : Wave) (hs : w.strobe.isNaN = false)
    (hhw : ∀ hw ∈ w.hardware, hw.Writable) (hmd : w.metadata.Writable) :
    parse (render w) = .ok { w with mask := 0, unmask := 0 } ∧
      ∀ vs, VectorLine.decode (VectorLine.encode vs) = .ok vs := by
  refine ⟨?_, VectorLine.decode_encode⟩
  have hhw' : (w.hardware.map fun hw => HwPath.parse hw.render) = w.hardware := by
    cases h : w.hardware with
    | none => rfl
    | some hw => rw [Option.map_some, (hhw hw h).parse_render]
  rw [parse_render_eq w hs (fun hw h => (hhw hw h).newline_not_mem_render) hmd, hhw']

theorem parse_render_of_writable_sample :
    (1.0 : Float).isNaN = false ∧ HwPath.Writable ⟨["top", "dut"]⟩ ∧
      Metadata.Writable ⟨[("VERSION", "1")]⟩ ∧
      parse (render ⟨[1, 1, 2], 1.0, some ⟨["top", "dut"]⟩, 3, 5, ⟨[("VERSION", "1")]⟩⟩) =
        .ok ⟨[1, 1, 2], 1.0, some ⟨["top", "dut"]⟩, 0, 0, ⟨[("VERSION", "1")]⟩⟩ := by
  have hs : (1.0 : Float).isNaN = false := by decide
  have hhw : HwPath.Writable ⟨["top", "dut"]⟩ :=
    ⟨by unfold HwPath.Separated; decide, by decide, by decide⟩
  have hmd : Metadata.Writable ⟨[("VERSION", "1")]⟩ := ⟨by decide, List.forall_mem_singleton.2
    ⟨by decide, by decide, by decide, by decide, by decide, by decide, by decide⟩⟩
  exact ⟨hs, hhw, hmd, (parse_render_of_writable
    ⟨[1, 1, 2], 1.0, some ⟨["top", "dut"]⟩, 3, 5, ⟨[("VERSION", "1")]⟩⟩ hs
    (fun hw h => by cases h; exact hhw) hmd).1⟩

end WaveFile

end PinWave
