import PinWave.Convert.Files
import PinWave.Proofs.Directory
import PinWave.Proofs.Wave.File
import Mathlib.Data.List.Nodup
/-!
# Writing one file per hardware group

The waves of a resampling are written one file per hardware group, after every strobe period is
checked: a bad period stops everything before the first write. The file of a group is named by
the tag and the group's interface, its innermost component, so the name forgets the rest of the
path. Following that name leads to the entry made of the tag's last piece, an underscore, the
interface and `.glue` (`locate_waveFileName`), and two groups lead to one entry exactly when
their interfaces agree (`innermost_eq_of_locate`). Each write sets its own entry only
(`go_find?_frame`), so a wave's text stays in its file unless a later group shares the
interface (`go_read`). Hence a successful write gives every group a file of its own holding its
wave exactly when the interfaces of the groups are pairwise distinct.

## Main statements
* `writeWavesInOrder_files`: what writing the waves of several groups leaves behind.
-/

namespace PinWave

open Directory

/-! ## File names -/

theorem toList_waveFileName (tag : String) (hw : HwPath) :
    (waveFileName tag hw).toList = tag.toList ++ '_' :: (hw.innermost.toList ++ ".glue".toList) := by
  simp [waveFileName]

theorem waveFileName_injective (tag : String) :
    Function.Injective fun s : String => tag ++ "_" ++ s ++ ".glue" := by
  intro s t hst
  have h := congrArg String.toList hst
  simp only [String.toList_append, List.append_assoc, List.append_cancel_left_eq,
    List.append_cancel_right_eq] at h
  exact String.toList_inj.1 h

/-- The entry a file name leads to: the last piece of the tag, an underscore, the interface and
`.glue`. An interface holding `/` leads nowhere: the part it cuts off holds the underscore, so it
is neither `.` nor `..` and cannot be passed through. -/
theorem locate_waveFileName {d : Directory} {tag n : String} {hw : HwPath} {b : Bool}
    (h : d.locate (waveFileName tag hw) = .ok (.entry n b)) :
    ∃ init last, tag.toList.splitOn '/' = init ++ [last] ∧
      n.toList = last ++ '_' :: (hw.innermost.toList ++ ".glue".toList) := by
  obtain ⟨hlast, hpass⟩ := locate_eq_entry h
  by_cases hs : '/' ∈ hw.innermost.toList
  · exfalso
    obtain ⟨s₁, s₂, hs', hs₁⟩ := exists_eq_append_of_mem hs
    have hp : (waveFileName tag hw).toList =
        (tag.toList ++ '_' :: s₁) ++ '/' :: (s₂ ++ ".glue".toList) := by
      rw [toList_waveFileName, hs']
      simp
    obtain ⟨init, last, hA, hmem⟩ := mem_dropLast_pathParts hp (by decide) (by decide)
    obtain ⟨init', last', -, hTs⟩ :=
      splitOn_append_of_not_mem (x := '/') (B := '_' :: s₁) (by simp [hs₁]) tag.toList
    -- the piece cut off before the first `/` of the interface holds the underscore
    have hpiece : last = last' ++ '_' :: s₁ := by
      have := (List.append_inj' (hA.symm.trans hTs) rfl).2
      simpa using this
    have hu : '_' ∈ (String.ofList last).toList := by simp [hpiece]
    rcases hpass _ (hmem (by simp [hpiece])) with h1 | h1 <;> rw [h1] at hu <;> revert hu <;> decide
  · have hB : '/' ∉ '_' :: (hw.innermost.toList ++ ".glue".toList) := by
      simp only [List.mem_cons, List.mem_append, not_or]
      exact ⟨by decide, hs, by decide⟩
    obtain ⟨init, last, hT, hl⟩ := getLast?_pathParts (toList_waveFileName tag hw) hB (by simp)
    rw [hlast, Option.some.injEq] at hl
    exact ⟨init, last, hT, by rw [hl, String.toList_ofList]⟩

/-- Two groups whose file names lead to one entry have the same interface. -/
theorem innermost_eq_of_locate {d₁ d₂ : Directory} {tag n : String} {hw₁ hw₂ : HwPath}
    {b₁ b₂ : Bool} (h₁ : d₁.locate (waveFileName tag hw₁) = .ok (.entry n b₁))
    (h₂ : d₂.locate (waveFileName tag hw₂) = .ok (.entry n b₂)) : hw₁.innermost = hw₂.innermost := by
  obtain ⟨i₁, l₁, ht₁, hn₁⟩ := locate_waveFileName h₁
  obtain ⟨i₂, l₂, ht₂, hn₂⟩ := locate_waveFileName h₂
  have hl : l₁ = l₂ := by simpa using (List.append_inj' (ht₁.symm.trans ht₂) rfl).2
  have h := hn₁.symm.trans hn₂
  rw [hl] at h
  simp only [List.append_cancel_left_eq, List.cons.injEq, true_and,
    List.append_cancel_right_eq] at h
  exact String.toList_inj.1 h

/-! ## The strobe check -/

section Check

variable {f : HwPath × Wave → Except Error Unit} (hf : ∀ p, f p = checkStrobe p.2.strobe)
include hf

/-- A bad strobe period anywhere fails the check, with the first bad period. -/
theorem forM_checkStrobe_error {ws : List (HwPath × Wave)}
    (h : ∃ p ∈ ws, strobeOk p.2.strobe = false) :
    ∃ s, strobeOk s = false ∧ ws.forM f = .error (.invalidStrobe s) := by
  induction ws with
  | nil => simp at h
  | cons p ws ih =>
    simp only [List.forM, hf]
    cases hp : strobeOk p.2.strobe
    · exact ⟨p.2.strobe, hp, by simp [checkStrobe, hp, bind, Except.bind]⟩
    · obtain ⟨s, hs, hws⟩ := ih (by simpa [hp] using h)
      exact ⟨s, hs, by simp [checkStrobe, hp, bind, Except.bind, hws]⟩

end Check

/-! ## Writing in order -/

section Run

variable (tag : String) {d d' : Directory} {names names' : List String}
  {marks marks' : List (HwPath × ℕ × ℕ)}

/-- One step of the run: the first wave's file is written, and the run goes on from there. -/
theorem go_cons {hw : HwPath} {w : Wave} {ws : List (HwPath × Wave)}
    (h : writeWavesInOrder.go tag d names marks ((hw, w) :: ws) = (d', .ok (names', marks'))) :
    ∃ d₁ marks₁, d.write (waveFileName tag hw) (.text (WaveFile.render w)) = .ok d₁ ∧
      writeWavesInOrder.go tag d₁ (names ++ [waveFileName tag hw]) marks₁ ws =
        (d', .ok (names', marks')) := by
  unfold writeWavesInOrder.go at h
  dsimp only at h
  split at h
  · simp at h
  · rename_i d₁ hwrite
    exact ⟨d₁, _, hwrite, h⟩

/-- The names written are those of the groups, in order. -/
theorem go_names {ws : List (HwPath × Wave)}
    (h : writeWavesInOrder.go tag d names marks ws = (d', .ok (names', marks'))) :
    names' = names ++ ws.map fun p => waveFileName tag p.1 := by
  induction ws generalizing d names marks with
  | nil =>
    simp only [writeWavesInOrder.go, Prod.mk.injEq, Except.ok.injEq] at h
    rw [← h.2.1, List.map_nil, List.append_nil]
  | cons p ws ih =>
    obtain ⟨d₁, marks₁, -, h₁⟩ := go_cons tag h
    rw [ih h₁]
    simp

/-- Writing groups with another interface leaves an entry alone: each write sets the entry its
own name leads to, and names of other interfaces lead elsewhere. -/
theorem go_find?_frame {ws : List (HwPath × Wave)}
    (h : writeWavesInOrder.go tag d names marks ws = (d', .ok (names', marks')))
    {d₀ : Directory} {hw₀ : HwPath} {n : String} {b : Bool}
    (hn : d₀.locate (waveFileName tag hw₀) = .ok (.entry n b))
    (hws : ∀ p ∈ ws, p.1.innermost ≠ hw₀.innermost) :
    d'.files.find? (·.1 == n) = d.files.find? (·.1 == n) := by
  induction ws generalizing d names marks with
  | nil =>
    simp only [writeWavesInOrder.go, Prod.mk.injEq] at h
    rw [h.1]
  | cons p ws ih =>
    obtain ⟨d₁, marks₁, hwrite, h₁⟩ := go_cons tag h
    obtain ⟨n₁, hl₁, hf₁⟩ := find?_write hwrite
    have hne : n ≠ n₁ := by
      rintro rfl
      exact hws p List.mem_cons_self (innermost_eq_of_locate hl₁ hn)
    rw [ih h₁ fun q hq => hws q (List.mem_cons_of_mem _ hq), hf₁ n, if_neg hne]

/-- A wave's text is in its file after the run when no later group shares its interface. -/
theorem go_read {pre post : List (HwPath × Wave)} {hw : HwPath} {w : Wave}
    (h : writeWavesInOrder.go tag d names marks (pre ++ (hw, w) :: post) =
      (d', .ok (names', marks')))
    (hpost : ∀ p ∈ post, p.1.innermost ≠ hw.innermost) :
    d'.read (waveFileName tag hw) = .ok (.text (WaveFile.render w)) := by
  induction pre generalizing d names marks with
  | nil =>
    obtain ⟨d₁, marks₁, hwrite, h₁⟩ := go_cons tag h
    obtain ⟨n, hl, hf⟩ := find?_write hwrite
    -- the later writes leave the entry of this file alone
    have hfind : d'.files.find? (·.1 == n) = some (n, .text (WaveFile.render w)) := by
      rw [go_find?_frame tag h₁ hl hpost, hf n, if_pos rfl]
    exact read_of_find? (locate_of_ok hl d') hfind
  | cons q pre ih =>
    obtain ⟨d₁, marks₁, -, h₁⟩ := go_cons tag h
    exact ih h₁

/-- A successful write has passed the check and run the writes from no names. -/
theorem go_of_writeWavesInOrder {d d' : Directory} {waves : List (HwPath × Wave)}
    {r : List String × List (HwPath × ℕ × ℕ)} (h : writeWavesInOrder d waves tag = (d', .ok r)) :
    writeWavesInOrder.go tag d [] [] waves = (d', .ok r) := by
  unfold writeWavesInOrder at h
  split at h
  · simp at h
  · exact h

end Run

/-- Writing the waves of several groups: a bad strobe period anywhere fails before any file is
written; otherwise a successful write names the groups' files in order, and every group has a
file of its own holding its wave's text exactly when the groups' interfaces are pairwise
distinct. -/
theorem writeWavesInOrder_files (d : Directory) (waves : List (HwPath × Wave)) (tag : String) :
    ((∃ p ∈ waves, strobeOk p.2.strobe = false) →
      ∃ s, strobeOk s = false ∧ writeWavesInOrder d waves tag = (d, .error (.invalidStrobe s))) ∧
    ∀ d' names marks, writeWavesInOrder d waves tag = (d', .ok (names, marks)) →
      names = waves.map (fun p => waveFileName tag p.1) ∧
      ((names.Nodup ∧
          ∀ p ∈ waves, d'.read (waveFileName tag p.1) = .ok (.text (WaveFile.render p.2))) ↔
        (waves.map fun p => p.1.innermost).Nodup) := by
  refine ⟨fun hbad => ?_, fun d' names marks h => ?_⟩
  · unfold writeWavesInOrder
    split
    · rename_i e he
      obtain ⟨s, hs, he'⟩ := forM_checkStrobe_error (fun _ => rfl) hbad
      rw [he'] at he
      cases he
      exact ⟨s, hs, rfl⟩
    · rename_i he
      obtain ⟨s, hs, he'⟩ := forM_checkStrobe_error (fun _ => rfl) hbad
      rw [he'] at he
      cases he
  · have hgo := go_of_writeWavesInOrder tag h
    have hnames := go_names tag hgo
    rw [List.nil_append] at hnames
    -- the names are the interfaces under one injective map
    have hmap : names = (waves.map fun p => p.1.innermost).map fun s => tag ++ "_" ++ s ++ ".glue" := by
      rw [hnames, List.map_map]
      rfl
    refine ⟨hnames, fun ⟨hnd, _⟩ => ?_, fun hnd => ⟨?_, fun ⟨hw, w⟩ hp => ?_⟩⟩
    · rw [hmap] at hnd
      exact hnd.of_map _
    · rw [hmap]
      exact hnd.map (waveFileName_injective tag)
    · -- no later group shares the interface, so the last write to the file is this one
      obtain ⟨pre, post, hws⟩ := List.append_of_mem hp
      rw [hws] at hgo
      refine go_read tag hgo fun q hq heq => ?_
      rw [hws, List.map_append, List.map_cons, List.nodup_append, List.nodup_cons] at hnd
      exact hnd.2.1.1 (List.mem_map.2 ⟨q, hq, heq⟩)

theorem writeWavesInOrder_files_sample :
    (∃ s, strobeOk s = false ∧
      writeWavesInOrder Directory.empty [(⟨["A", "x"]⟩, ⟨[1], 0.0, none, 0, 0, ⟨[]⟩⟩)] "t" =
        (Directory.empty, .error (.invalidStrobe s))) ∧
    ∃ d', writeWavesInOrder Directory.empty [(⟨["A", "x"]⟩, ⟨[1], 1.0, none, 0, 0, ⟨[]⟩⟩),
        (⟨["B", "y"]⟩, ⟨[2], 1.0, none, 0, 0, ⟨[]⟩⟩)] "t" = (d', .ok (["t_x.glue", "t_y.glue"], [])) ∧
      d'.read "t_x.glue" = .ok (.text (WaveFile.render ⟨[1], 1.0, none, 0, 0, ⟨[]⟩⟩)) ∧
      d'.read "t_y.glue" = .ok (.text (WaveFile.render ⟨[2], 1.0, none, 0, 0, ⟨[]⟩⟩)) := by
  refine ⟨(writeWavesInOrder_files _ _ _).1 ⟨_, List.mem_singleton_self _, by decide⟩, ?_⟩
  have hr : (writeWavesInOrder Directory.empty [(⟨["A", "x"]⟩, ⟨[1], 1.0, none, 0, 0, ⟨[]⟩⟩),
      (⟨["B", "y"]⟩, ⟨[2], 1.0, none, 0, 0, ⟨[]⟩⟩)] "t").2.toOption =
      some (["t_x.glue", "t_y.glue"], []) := by decide +kernel
  generalize hw : writeWavesInOrder Directory.empty _ "t" = r at hr
  obtain ⟨d', r⟩ := r
  cases r with
  | error e => cases hr
  | ok v =>
    cases hr
    obtain ⟨-, hread⟩ := ((writeWavesInOrder_files _ _ _).2 d' _ _ hw).2.2 (by decide)
    have hx : waveFileName "t" ⟨["A", "x"]⟩ = "t_x.glue" := by decide
    have hy : waveFileName "t" ⟨["B", "y"]⟩ = "t_y.glue" := by decide
    have h₁ := hread _ List.mem_cons_self
    have h₂ := hread _ (List.mem_cons_of_mem _ List.mem_cons_self)
    dsimp only at h₁ h₂
    rw [hx] at h₁
    rw [hy] at h₂
    exact ⟨d', rfl, h₁, h₂⟩

theorem writeWavesInOrder_shares_file :
    ∃ d', writeWavesInOrder Directory.empty
        [(⟨["A", "x"]⟩, ⟨[1], 1.0, some ⟨["A", "x"]⟩, 0, 0, ⟨[]⟩⟩),
          (⟨["B", "x"]⟩, ⟨[2], 1.0, some ⟨["B", "x"]⟩, 0, 0, ⟨[]⟩⟩)] "t" =
        (d', .ok (["t_x.glue", "t_x.glue"], [])) ∧
      d'.read "t_x.glue" = .ok (.text (WaveFile.render ⟨[2], 1.0, some ⟨["B", "x"]⟩, 0, 0, ⟨[]⟩⟩)) ∧
      WaveFile.render ⟨[1], 1.0, some ⟨["A", "x"]⟩, 0, 0, ⟨[]⟩⟩ ≠
        WaveFile.render ⟨[2], 1.0, some ⟨["B", "x"]⟩, 0, 0, ⟨[]⟩⟩ := by
  have hr : (writeWavesInOrder Directory.empty
      [(⟨["A", "x"]⟩, ⟨[1], 1.0, some ⟨["A", "x"]⟩, 0, 0, ⟨[]⟩⟩),
        (⟨["B", "x"]⟩, ⟨[2], 1.0, some ⟨["B", "x"]⟩, 0, 0, ⟨[]⟩⟩)] "t").2.toOption =
      some (["t_x.glue", "t_x.glue"], []) := by decide +kernel
  -- the two texts differ in their first character, the first word of the vector
  have hne : WaveFile.render ⟨[1], 1.0, some ⟨["A", "x"]⟩, 0, 0, ⟨[]⟩⟩ ≠
      WaveFile.render ⟨[2], 1.0, some ⟨["B", "x"]⟩, 0, 0, ⟨[]⟩⟩ := by
    intro h
    have hhead := congrArg (fun s => s.toList.head?) h
    have e₁ : (VectorLine.encode [1]).toList = ['1'] := by decide
    have e₂ : (VectorLine.encode [2]).toList = ['2'] := by decide
    simp [WaveFile.toList_render, WaveFile.renderLines, e₁, e₂] at hhead
  generalize hw : writeWavesInOrder Directory.empty _ "t" = r at hr
  obtain ⟨d', r⟩ := r
  cases r with
  | error e => cases hr
  | ok v =>
    cases hr
    have hx : waveFileName "t" ⟨["B", "x"]⟩ = "t_x.glue" := by decide
    have hws : [(⟨["A", "x"]⟩, ⟨[1], 1.0, some ⟨["A", "x"]⟩, 0, 0, ⟨[]⟩⟩),
        (⟨["B", "x"]⟩, ⟨[2], 1.0, some ⟨["B", "x"]⟩, 0, 0, ⟨[]⟩⟩)] =
        [(⟨["A", "x"]⟩, ⟨[1], 1.0, some ⟨["A", "x"]⟩, 0, 0, ⟨[]⟩⟩)] ++
          ((⟨["B", "x"]⟩ : HwPath), (⟨[2], 1.0, some ⟨["B", "x"]⟩, 0, 0, ⟨[]⟩⟩ : Wave)) :: [] := rfl
    have hgo := go_of_writeWavesInOrder "t" hw
    rw [hws] at hgo
    have hread := go_read "t" hgo (by simp)
    rw [hx] at hread
    exact ⟨d', rfl, hread, hne⟩

end PinWave
