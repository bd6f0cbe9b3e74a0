import PinWave.Proofs.Ascii.Edits
import PinWave.Proofs.Wave.File
/-!
# Reading an ASCII wave back from its text

A wave is written one signal a line, as `name:\tlevels`. Reading trims each line, passes over
blank lines and `//` comments, cuts the line at its first colon and trims both parts, and takes
each name once. A written line is therefore read back as its own signal exactly when its name
survives those steps (`AsciiWave.NameWritable`): it is nonempty and its own trim, holds no colon
and no line feed, and does not start with `//`. Levels always survive: they are `0` and `1`, and
the tab before them is trimmed away. With distinct names, the text of a wave reads back as the
wave, its signals in order (`AsciiWave.parse_render_eq_self`).

Conversely every name that reading takes has these properties, since it is cut before the first
colon of a trimmed line that is neither blank nor a comment and that holds no line feed
(`AsciiWave.writable_of_parse`). So a wave is read back from its text exactly when it is
writable, and reading a wave's text is the identity on every wave that reading gives.

## Main definitions
* `AsciiWave.NameWritable`, `AsciiWave.Writable`.
* `AsciiWave.lineOf`: the written line of a signal, without its line feed.

## Main statements
* `AsciiWave.parse_render_eq_self`, `AsciiWave.writable_of_parse`.
* `AsciiWave.parse_render_eq_ok_iff_writable`: the text of a wave reads back as the wave exactly
  when the wave is writable, and every wave that is read is.
-/

namespace PinWave.AsciiWave

open Text

/-- A signal name that survives a line of its own: nonempty, its own trim, without a colon or a
line feed, and not starting with the comment mark `//`. -/
structure NameWritable (n : String) : Prop where
  ne : n ≠ ""
  trim : Text.trim n = n
  colon : ':' ∉ n.toList
  newline : '\n' ∉ n.toList
  comment : ¬ ['/', '/'] <+: n.toList

/-- A wave whose text reads back: its names are distinct and each survives a line of its own. -/
structure Writable (a : AsciiWave) : Prop where
  nodup : a.names.Nodup
  name : ∀ p ∈ a.signals, NameWritable p.1

/-- The written line of a signal, without its line feed. -/
def lineOf (p : String × List Bool) : List Char := p.1.toList ++ ':' :: '\t' :: p.2.map levelChar

theorem toList_render (a : AsciiWave) :
    a.render.toList = (a.signals.map lineOf).flatMap (· ++ ['\n']) := by
  simp [render, lineOf, levelText, List.flatMap_map]

/-! ## Levels -/

@[simp] theorem isBlank_levelChar (b : Bool) : isBlank (levelChar b) = false := by
  cases b <;> decide

theorem levelsOf_map_levelChar (b : List Bool) : levelsOf (b.map levelChar) = b := by
  rw [levelsOf, List.map_map]
  conv_rhs => rw [← List.map_id b]
  exact List.map_congr_left fun x _ => by cases x <;> rfl

theorem firstNonLevel_map_levelChar (b : List Bool) : firstNonLevel (b.map levelChar) = none := by
  rw [firstNonLevel, List.find?_eq_none]
  intro c hc
  obtain ⟨x, -, rfl⟩ := List.mem_map.1 hc
  cases x <;> decide

/-- Levels after a tab are trimmed to the levels. -/
theorem trimChars_tab_levels (b : List Bool) :
    trimChars ('\t' :: b.map levelChar) = b.map levelChar := by
  rw [trimChars_eq_trimEnd, List.dropWhile_cons_of_pos (by decide), ← trimChars_eq_trimEnd]
  exact trimChars_of_forall fun c hc => by
    obtain ⟨x, -, rfl⟩ := List.mem_map.1 hc
    exact isBlank_levelChar x

/-! ## Reading a line -/

/-- A line that is neither blank nor a comment is read; any other is passed over. -/
theorem readLines_cons (w : AsciiWave) (n : Nat) (raw : String) (rest : List (Nat × String)) :
    readLines w ((n, raw) :: rest) =
      if trimChars raw.toList = [] ∨ ['/', '/'] <+: trimChars raw.toList then readLines w rest
      else match readLine w (trimChars raw.toList) with
        | .ok w' => readLines w' rest
        | .error f => .error ⟨n, f⟩ := by
  rw [readLines]
  split
  · rename_i h
    rw [if_pos (.inl h)]
  · rename_i h
    rw [if_pos (.inr (by simp [h]))]
  · rename_i hblank hcomment
    refine (if_neg ?_).symm
    rintro (h | ⟨t, ht⟩)
    · exact hblank h
    · exact hcomment t ht.symm

/-- A name that survives its line starts a line that is no comment. -/
theorem not_comment_append {n : String} (hn : NameWritable n) (rest : List Char) :
    ¬ ['/', '/'] <+: n.toList ++ ':' :: rest := by
  rintro ⟨t, ht⟩
  rcases hcs : n.toList with _ | ⟨c, _ | ⟨d, cs⟩⟩
  · exact hn.ne (String.toList_eq_nil_iff.1 hcs)
  · -- a one-character name is followed by the colon
    rw [hcs] at ht
    simp at ht
  · rw [hcs] at ht
    simp only [List.cons_append, List.cons.injEq] at ht
    exact hn.comment ⟨cs, by rw [hcs, ← ht.1, ← ht.2.1]; rfl⟩

/-- A written line, trimmed: the name and the colon stay, and the tab goes with the levels, or
alone when there are none. -/
theorem trimChars_lineOf {p : String × List Bool} (hn : NameWritable p.1) :
    trimChars (lineOf p) = p.1.toList ++ ':' :: trimEnd ('\t' :: p.2.map levelChar) := by
  obtain ⟨c, cs, hcs⟩ := List.exists_cons_of_ne_nil (mt String.toList_eq_nil_iff.1 hn.ne)
  have hhead : isBlank c = false :=
    head_of_trimChars_eq ((trim_eq_self_iff _).1 hn.trim) c (by simp [hcs])
  have hl : (p.1.toList ++ [':']).getLast? = some ':' := List.getLast?_concat
  have h := @trimChars_prefix_append (p.1.toList ++ [':']) (fun x hx => by simp_all)
    (fun x hx => by rw [hl] at hx; cases hx; decide) (by simp) ('\t' :: p.2.map levelChar)
  simpa [lineOf] using h

/-- A written line, trimmed, is read as its signal when the name is new. -/
theorem readLine_lineOf {w : AsciiWave} {p : String × List Bool} (hn : NameWritable p.1) :
    readLine w (trimChars (lineOf p)) =
      if w.contains p.1 then .error (.duplicate p.1) else .ok (w.put p.1 p.2) := by
  have hname : String.ofList (trimChars p.1.toList) = p.1 := by
    rw [(trim_eq_self_iff _).1 hn.trim, String.ofList_toList]
  have hbits : trimChars ((p.1.toList ++ ':' :: trimEnd ('\t' :: p.2.map levelChar)).drop
      (p.1.toList.length + 1)) = p.2.map levelChar := by
    rw [show ∀ (l r : List Char), (l ++ ':' :: r).drop (l.length + 1) = r by simp,
      trimChars_trimEnd, trimChars_tab_levels]
  obtain ⟨q, qs, hq⟩ := List.exists_cons_of_ne_nil
    (List.splitOn_ne_nil ':' (trimEnd ('\t' :: p.2.map levelChar)))
  rw [trimChars_lineOf hn, readLine, List.splitOn_append_cons_self_of_not_mem hn.colon, hq]
  simp only [hname, hbits, firstNonLevel_map_levelChar, levelsOf_map_levelChar]
  rw [if_neg (by simpa using hn.ne)]

/-- A line that reads puts a new, nonempty name, cut before the line's first colon and trimmed. -/
theorem readLine_eq_ok_name {w w' : AsciiWave} {line : List Char} (h : readLine w line = .ok w') :
    ∃ k v bits, line = k ++ ':' :: v ∧ ':' ∉ k ∧ String.ofList (trimChars k) ≠ "" ∧
      w.contains (String.ofList (trimChars k)) = false ∧
      w' = w.put (String.ofList (trimChars k)) bits := by
  unfold readLine at h
  split at h
  · cases h
  · cases h
  · rename_i k tl hone hsplit
    -- the line has a colon after `k`, so `k` is the part before the first one
    have hkey : WaveFile.splitKey line = some (k, line.drop (k.length + 1)) := by
      unfold WaveFile.splitKey
      rw [hsplit]
      cases tl with
      | nil => exact (hone rfl).elim
      | cons _ _ => rfl
    obtain ⟨hline, hk⟩ := WaveFile.splitKey_eq_some hkey
    dsimp only at h
    split at h
    · cases h
    · rename_i hne
      split at h
      · cases h
      · split at h
        · cases h
        · rename_i hfresh
          cases h
          exact ⟨k, _, _, hline, hk, by simpa using hne, Bool.eq_false_iff.2 hfresh, rfl⟩

/-- A trimmed text whose first character is not blank is a prefix of the text. -/
theorem trimChars_isPrefix_self {k : List Char} (hk : ∀ c ∈ k.head?, isBlank c = false) :
    trimChars k <+: k := by
  rw [trimChars_eq_trimEnd, dropWhile_of_head hk]
  obtain ⟨b, hb, -⟩ := eq_trimEnd_append k
  exact ⟨b, hb.symm⟩

/-- The name cut from a trimmed line, neither blank nor a comment and without a line feed,
survives a line of its own. -/
theorem nameWritable_of_line {line k v : List Char} (htrim : trimChars line = line)
    (hnl : '\n' ∉ line) (hcomment : ¬ ['/', '/'] <+: line) (hline : line = k ++ ':' :: v)
    (hk : ':' ∉ k) (hne : String.ofList (trimChars k) ≠ "") :
    NameWritable (String.ofList (trimChars k)) := by
  have hsub : (trimChars k).Sublist line :=
    (trimChars_sublist k).trans (hline ▸ List.sublist_append_left k _)
  refine ⟨hne, ?_, ?_, ?_, ?_⟩
  · rw [trim_eq_self_iff, String.toList_ofList, trimChars_idem]
  · rw [String.toList_ofList]
    exact fun h => hk ((trimChars_sublist k).subset h)
  · rw [String.toList_ofList]
    exact fun h => hnl (hsub.subset h)
  · -- the name starts where the line does, so a comment mark on it would be one on the line
    rw [String.toList_ofList]
    have hkne : k ≠ [] := by
      rintro rfl
      exact hne rfl
    have hhead : ∀ c ∈ k.head?, isBlank c = false := by
      intro c hc
      obtain ⟨d, ds, rfl⟩ := List.exists_cons_of_ne_nil hkne
      exact head_of_trimChars_eq htrim c (by simpa [hline] using hc)
    intro hpre
    exact hcomment
      (hpre.trans ((trimChars_isPrefix_self hhead).trans (hline ▸ List.prefix_append k _)))

/-! ## Reading lines -/

/-- Reading written lines in order appends their signals, each name new. -/
theorem readLines_lineOf {rest : List (String × List Bool)} (hw : ∀ p ∈ rest, NameWritable p.1) :
    ∀ {acc : List (String × List Bool)} {L : List (Nat × String)},
      ((acc ++ rest).map (·.1)).Nodup →
      L.map (·.2) = rest.map (fun p => String.ofList (dropReturn (lineOf p))) →
      readLines ⟨acc⟩ L = .ok ⟨acc ++ rest⟩ := by
  induction rest with
  | nil =>
    intro acc L _ hL
    rw [List.map_nil, List.map_eq_nil_iff] at hL
    subst hL
    simp [readLines]
  | cons p rest ih =>
    intro acc L hnd hL
    obtain ⟨⟨n, raw⟩, L', rfl, hraw, hL'⟩ := List.map_eq_cons_iff.1 hL
    have hn := hw p List.mem_cons_self
    have hline : trimChars raw.toList = trimChars (lineOf p) := by
      rw [show raw = String.ofList (dropReturn (lineOf p)) from hraw, String.toList_ofList,
        trimChars_dropReturn]
    have hfresh : (⟨acc⟩ : AsciiWave).contains p.1 = false := by
      rw [Bool.eq_false_iff]
      intro hc
      rw [List.map_append, List.map_cons, List.nodup_middle, List.nodup_cons] at hnd
      exact hnd.1 (List.mem_append_left _ (contains_iff.1 hc))
    rw [readLines_cons, hline, if_neg, readLine_lineOf hn, if_neg (by simp [hfresh])]
    · dsimp only
      rw [show (⟨acc⟩ : AsciiWave).put p.1 p.2 = ⟨acc ++ [p]⟩ from
        eq_of_signals (signals_put_of_not_contains hfresh p.2),
        ih (fun q hq => hw q (List.mem_cons_of_mem _ hq)) (by simpa using hnd) hL']
      simp
    · rw [trimChars_lineOf hn]
      rintro (h | h)
      · simp at h
      · exact not_comment_append hn _ h

/-- Names that survive their lines stay so through every line read, when no line holds a line
feed. -/
theorem nameWritable_readLines {w a : AsciiWave} (hw : ∀ p ∈ w.signals, NameWritable p.1)
    {L : List (Nat × String)} (hnl : ∀ l ∈ L.map (·.2), '\n' ∉ l.toList)
    (h : readLines w L = .ok a) : ∀ p ∈ a.signals, NameWritable p.1 := by
  induction L generalizing w with
  | nil =>
    cases h
    exact hw
  | cons e L ih =>
    obtain ⟨n, raw⟩ := e
    have hnl' : ∀ l ∈ L.map (·.2), '\n' ∉ l.toList := fun l hl => hnl l (List.mem_cons_of_mem _ hl)
    rw [readLines_cons] at h
    split at h
    · exact ih hw hnl' h
    · rename_i hentry
      split at h
      · rename_i w' hread
        obtain ⟨k, v, bits, hline, hk, hne, hfresh, rfl⟩ := readLine_eq_ok_name hread
        -- the line is trimmed, holds no line feed and is no comment, so the new name survives
        have hname := nameWritable_of_line (trimChars_idem _)
          (fun h => hnl raw List.mem_cons_self ((trimChars_sublist _).subset h))
          (fun h => hentry (.inr h)) hline hk hne
        refine ih (fun p hp => ?_) hnl' h
        rw [signals_put_of_not_contains hfresh] at hp
        rcases List.mem_append.1 hp with hp | hp
        · exact hw p hp
        · rw [List.mem_singleton.1 hp]
          exact hname
      · cases h

/-! ## Reading a wave -/

/-- The text of a writable wave reads back as the wave, its signals in order. -/
theorem parse_render_eq_self {a : AsciiWave} (ha : a.Writable) : parse a.render = .ok a := by
  have hnl : ∀ l ∈ a.signals.map lineOf, '\n' ∉ l := by
    intro l hl hc
    obtain ⟨p, hp, rfl⟩ := List.mem_map.1 hl
    simp only [lineOf, List.mem_append, List.mem_cons, List.mem_map] at hc
    rcases hc with hc | hc | hc | ⟨x, -, hx⟩
    · exact (ha.name p hp).newline hc
    · cases hc
    · cases hc
    · cases x <;> cases hx
  have hlines :
      Text.lines a.render = a.signals.map fun p => String.ofList (dropReturn (lineOf p)) := by
    rw [Text.lines, toList_render, lineChars_ended hnl, List.map_map, List.map_map]
    rfl
  unfold parse
  rw [show empty = ⟨[]⟩ from rfl, readLines_lineOf ha.name (by simpa [names] using ha.nodup)
    (by rw [WaveFile.map_snd_zipIdx _ _ _ fun _ => rfl, hlines])]
  rfl

/-- Every wave that is read is writable: its names are distinct, and each was cut before the
first colon of a trimmed line that is neither blank nor a comment and holds no line feed. -/
theorem writable_of_parse {text : String} {a : AsciiWave} (h : parse text = .ok a) :
    a.Writable := by
  have hnl : ∀ l ∈ ((Text.lines text).zipIdx.map fun p => (p.2 + 1, p.1)).map (·.2),
      '\n' ∉ l.toList := by
    rw [WaveFile.map_snd_zipIdx _ _ _ fun _ => rfl]
    exact fun l hl => newline_not_mem_lines hl
  have h0 : empty.names.Nodup := List.nodup_nil
  exact ⟨nodup_readLines h0 h, nameWritable_readLines (fun p hp => by cases hp) hnl h⟩

/-- The text of a wave reads back as the wave, its signals in the same order, exactly when the
wave is writable: its names are distinct, nonempty, their own trims, without a colon or a line
feed, and do not start with `//`. Every wave read from text is writable, so writing it and reading
again gives it back. -/
theorem parse_render_eq_ok_iff_writable (a : AsciiWave) :
    (parse a.render = .ok a ↔ a.Writable) ∧
      ∀ text, parse text = .ok a → a.Writable ∧ parse a.render = .ok a :=
  ⟨⟨writable_of_parse, parse_render_eq_self⟩,
    fun _ h => ⟨writable_of_parse h, parse_render_eq_self (writable_of_parse h)⟩⟩

example : (parse "A:\t0101\n// note\n\n  B : 1 \n").map render = .ok "A:\t0101\nB:\t1\n" := by
  decide

end PinWave.AsciiWave
