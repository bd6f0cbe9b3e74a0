import Mathlib
import PinWave.Hardware.Path
import PinWave.Proofs.Text.Lines
/-!
# Reading a hardware path back from its text

A path is written as its components joined by `/` and read by trimming the text, cutting it at
every `/` and dropping the empty pieces. Reading always gives components that are nonempty and
hold no `/`; such a path reads back from its text exactly when the text has no blank at either
end. One way round the cut gives the components back; the other way round, trimming only ever
loses characters, while reading a text and writing it again never makes it longer, so a path
whose text loses a blank to the trim cannot come back.

## Main statements
* `HwPath.separated_parse`: read components are nonempty and hold no `/`.
* `HwPath.parse_render_iff`: a separated path reads back exactly when its text is its own trim.
* `HwPath.trimChars_render`: components with no blank at their ends give such a text.
* `HwPath.Writable.parse_render`: a path that can be written on a line reads back.
-/

namespace PinWave.HwPath

open Text

/-- The components are nonempty and hold no `/`: the shape of every path read from text. -/
def Separated (hw : HwPath) : Prop := ∀ p ∈ hw.parts, p ≠ "" ∧ '/' ∉ p.toList

theorem toList_render (hw : HwPath) :
    hw.render.toList = ['/'].intercalate (hw.parts.map String.toList) := by
  simp [render, String.toList_intercalate]

theorem toList_parse_parts (s : String) :
    (parse s).parts.map String.toList =
      ((trimChars s.toList).splitOn '/').filter (fun p => !p.isEmpty) := by
  simp [parse, List.map_map, Function.comp_def]

/-- Every component read from a text is a nonempty run of its characters other than `/`. -/
theorem mem_parse {s : String} {p : String} (hp : p ∈ (parse s).parts) :
    p ≠ "" ∧ ∀ c ∈ p.toList, c ∈ s.toList ∧ c ≠ '/' := by
  have hp' : p.toList ∈ (parse s).parts.map String.toList := List.mem_map_of_mem hp
  rw [toList_parse_parts, List.mem_filter] at hp'
  obtain ⟨hsplit, hne⟩ := hp'
  refine ⟨fun h => by simp [h] at hne, fun c hc => ?_⟩
  obtain ⟨hmem, hsep⟩ := mem_of_mem_splitOn hsplit hc
  exact ⟨(trimChars_sublist _).subset hmem, hsep⟩

theorem separated_parse (s : String) : (parse s).Separated := fun _ hp =>
  ⟨(mem_parse hp).1, fun h => (mem_parse hp).2 '/' h |>.2 rfl⟩

/-! ## Lengths -/

theorem length_intercalate (x : Char) (L : List (List Char)) :
    ([x].intercalate L).length = (L.map List.length).sum + (L.length - 1) := by
  induction L with
  | nil => rfl
  | cons l L ih =>
    cases L with
    | nil => simp
    | cons l' L =>
      rw [List.intercalate_cons_cons, List.length_append, List.length_append, ih]
      simp only [List.map_cons, List.sum_cons, List.length_cons, List.length_nil]
      omega

theorem sum_length_filter_nonempty (L : List (List Char)) :
    ((L.filter fun p => !p.isEmpty).map List.length).sum = (L.map List.length).sum := by
  induction L with
  | nil => rfl
  | cons l L ih =>
    cases l with
    | nil => simpa using ih
    | cons c l => simp [ih]

/-- Reading a text and writing the path again never gives a longer text than the trimmed one:
the same characters stand between the separators, and dropping empty pieces only removes
separators. -/
theorem length_render_parse (s : String) :
    (parse s).render.toList.length ≤ (trimChars s.toList).length := by
  have ht : ['/'].intercalate ((trimChars s.toList).splitOn '/') = trimChars s.toList :=
    List.intercalate_splitOn '/'
  have hlen := length_intercalate '/' ((trimChars s.toList).splitOn '/')
  rw [ht] at hlen
  rw [toList_render, toList_parse_parts, length_intercalate, sum_length_filter_nonempty, hlen]
  have := List.length_filter_le (fun p : List Char => !p.isEmpty) ((trimChars s.toList).splitOn '/')
  omega

/-! ## Reading back -/

/-- A separated path whose text is its own trim reads back: the cut at `/` gives the
components back. -/
theorem parse_render (hw : HwPath) (hs : hw.Separated)
    (ht : trimChars hw.render.toList = hw.render.toList) : parse hw.render = hw := by
  obtain ⟨parts⟩ := hw
  have hsep : ∀ l ∈ parts.map String.toList, '/' ∉ l := by
    simp only [List.mem_map]
    rintro l ⟨p, hp, rfl⟩
    exact (hs p hp).2
  have hne : ∀ l ∈ parts.map String.toList, !l.isEmpty := by
    simp only [List.mem_map]
    rintro l ⟨p, hp, rfl⟩
    simpa using (hs p hp).1
  unfold parse
  rw [ht, toList_render]
  congr 1
  cases parts with
  | nil => rfl
  | cons p ps =>
    rw [List.splitOn_intercalate _ hsep (by simp), List.filter_eq_self.2 hne, List.map_map]
    simp [Function.comp_def]

/-- A separated path reads back from its text exactly when the text has no blank at either
end. -/
theorem parse_render_iff (hw : HwPath) (hs : hw.Separated) :
    parse hw.render = hw ↔ trimChars hw.render.toList = hw.render.toList := by
  refine ⟨fun h => ?_, parse_render hw hs⟩
  have hlen := length_render_parse hw.render
  rw [h] at hlen
  exact (trimChars_sublist _).eq_of_length_le hlen

/-- Components with no blank at their ends, the first and the last nonempty, give a text with
no blank at its ends. -/
theorem trimChars_render (hw : HwPath) (hs : hw.Separated)
    (ht : ∀ p ∈ hw.parts, Text.trim p = p) : trimChars hw.render.toList = hw.render.toList := by
  rw [toList_render]
  refine trimChars_intercalate _ fun m hm => ?_
  obtain ⟨q, hq, rfl⟩ := List.mem_map.1 hm
  exact ⟨by simpa using (hs q hq).1, (trim_eq_self_iff q).1 (ht q hq)⟩

/-! ## Paths that can be written on a line -/

/-- A path that can be written on a line of its own and read back: separated components with no
line feed and no blank at their ends. -/
structure Writable (hw : HwPath) : Prop where
  separated : hw.Separated
  newline : ∀ p ∈ hw.parts, '\n' ∉ p.toList
  trim : ∀ p ∈ hw.parts, Text.trim p = p

theorem Writable.parse_render {hw : HwPath} (h : hw.Writable) : parse hw.render = hw :=
  HwPath.parse_render hw h.separated (trimChars_render hw h.separated h.trim)

theorem Writable.newline_not_mem_render {hw : HwPath} (h : hw.Writable) :
    '\n' ∉ hw.render.toList := by
  intro hn
  rw [toList_render] at hn
  rcases mem_intercalate hn with h' | ⟨l, hl, hnl⟩
  · cases h'
  · obtain ⟨p, hp, rfl⟩ := List.mem_map.1 hl
    exact h.newline p hp hnl

end PinWave.HwPath
