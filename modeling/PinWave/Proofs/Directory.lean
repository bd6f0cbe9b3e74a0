import PinWave.Directory
/-!
# Following paths and writing files

A path is cut at `/` into parts; the parts before the last are passed through, and only `.` and
`..` can be passed, since a working directory holds no subdirectories. So whether a path leads to
an entry, and to which, does not depend on the files of the directory (`locate_of_ok`), and the
entry is the last part of the path. Writing a file sets the entry it leads to and no other
(`find?_write`), and reading a path then gives what was written there (`read_of_find?`).

## Main definitions
* `Directory.pathParts`: the nonempty parts of a path.

## Main statements
* `Directory.locate_of_ok`: a path leads to the same place in every directory, once it leads
  anywhere.
* `Directory.locate_eq_entry`: the entry a path leads to is its last part, and every part before
  it is `.` or `..`.
* `Directory.find?_write`: a write sets one entry.
-/

namespace PinWave.Directory

/-- The nonempty parts of a path, in order. -/
def pathParts (path : String) : List String :=
  ((path.toList.splitOn '/').map String.ofList).filter (· != "")

/-- Passing through parts succeeds only over `.` and `..`, and then answers the same in every
directory. -/
theorem passThrough_ok {d : Directory} {inside b : Bool} {ps : List String}
    (h : d.passThrough inside ps = .ok b) :
    (∀ p ∈ ps, p = "." ∨ p = "..") ∧ ∀ d' : Directory, d'.passThrough inside ps = .ok b := by
  induction ps generalizing inside with
  | nil => exact ⟨by simp, fun _ => h⟩
  | cons p ps ih =>
    by_cases hd : p = "."
    · subst hd
      obtain ⟨hps, hd'⟩ := ih (by simpa [passThrough] using h)
      exact ⟨by simpa using hps, fun d' => by simpa [passThrough] using hd' d'⟩
    · by_cases hdd : p = ".."
      · subst hdd
        obtain ⟨hps, hd'⟩ := ih (by simpa [passThrough] using h)
        exact ⟨by simpa using hps, fun d' => by simpa [passThrough] using hd' d'⟩
      · -- any other part must be a directory, and there is none
        exfalso
        simp only [passThrough, beq_iff_eq, hd, hdd, if_false] at h
        split at h
        · cases h
        · split at h <;> cases h

/-- Once a path leads anywhere, it leads there in every directory: the directory is consulted only
to pass through parts, which succeeds the same way everywhere. -/
theorem locate_of_ok {d : Directory} {path : String} {p : Place} (h : d.locate path = .ok p)
    (d' : Directory) : d'.locate path = .ok p := by
  unfold locate at h ⊢
  split
  · rw [if_pos ‹_›] at h
    exact h
  · rw [if_neg ‹_›] at h
    dsimp only at h ⊢
    split
    · rename_i hl
      rw [hl] at h
      exact h
    · rename_i last hl
      rw [hl] at h
      simp only [bind, Except.bind] at h ⊢
      split at h
      · cases h
      · rename_i inside hp
        rw [(passThrough_ok hp).2 d']
        exact h

/-- The entry a path leads to is its last part, and every part before it is `.` or `..`. -/
theorem locate_eq_entry {d : Directory} {path n : String} {b : Bool}
    (h : d.locate path = .ok (.entry n b)) :
    (pathParts path).getLast? = some n ∧ ∀ p ∈ (pathParts path).dropLast, p = "." ∨ p = ".." := by
  unfold locate at h
  split at h
  · cases h
  · dsimp only at h
    split at h
    · split at h <;> cases h
    · rename_i last hl
      simp only [bind, Except.bind] at h
      split at h
      · cases h
      · rename_i inside hp
        refine ⟨?_, (passThrough_ok hp).1⟩
        -- only the last branch leads to an entry, and it names the last part
        split at h
        · cases h
        · split at h
          · cases h
          · split at h
            · cases h
              exact hl
            · cases h

/-- A write sets the entry its path leads to, in place if it is there and last if it is new. -/
theorem find?_write {d d' : Directory} {path : String} {c : Contents}
    (h : d.write path c = .ok d') :
    ∃ n, d.locate path = .ok (.entry n false) ∧
      ∀ m, d'.files.find? (·.1 == m) = if m = n then some (n, c) else d.files.find? (·.1 == m) := by
  unfold write at h
  split at h
  · cases h
  · cases h
  · rename_i n slash hl
    split at h
    · cases h
    · rename_i hs
      simp only [Bool.not_eq_true] at hs
      subst hs
      refine ⟨n, hl, fun m => ?_⟩
      split at h
      · -- the entry is there: it keeps its place and takes the new contents
        rename_i hhas
        cases h
        rw [List.find?_map]
        have hkey : ((fun e : String × Contents => e.1 == m) ∘
            fun e : String × Contents => if e.1 == n then (n, c) else e) = fun e => e.1 == m := by
          funext e
          by_cases he : e.1 = n <;> simp [he]
        rw [hkey]
        by_cases hm : m = n
        · subst hm
          obtain ⟨e0, he0, hk⟩ := List.any_eq_true.1 hhas
          have hsome : (d.files.find? (·.1 == m)).isSome := List.find?_isSome.2 ⟨e0, he0, hk⟩
          obtain ⟨e, he⟩ := Option.isSome_iff_exists.1 hsome
          have hem : e.1 = m := by simpa using List.find?_some he
          simp [he, hem]
        · rw [if_neg hm]
          cases he : d.files.find? (·.1 == m) with
          | none => rfl
          | some e =>
            have hem : e.1 = m := by simpa using List.find?_some he
            simp [hem, hm]
      · -- a new entry goes last
        rename_i hhas
        cases h
        rw [List.find?_append]
        by_cases hm : m = n
        · subst hm
          have hnone : d.files.find? (·.1 == m) = none :=
            List.find?_eq_none.2 fun e he hk => hhas (List.any_eq_true.2 ⟨e, he, hk⟩)
          simp [hnone]
        · simp [hm, Ne.symm hm]

/-- Reading a path gives the contents of the entry it leads to. -/
theorem read_of_find? {d : Directory} {path n n' : String} {c : Contents}
    (hl : d.locate path = .ok (.entry n false)) (hf : d.files.find? (·.1 == n) = some (n', c)) :
    d.read path = .ok c := by
  simp [read, hl, hf, bind, Except.bind, pure, Except.pure]

/-! ## The parts of a path -/

/-- Text with no separator added at the end of a text lengthens its last piece. -/
theorem splitOn_append_of_not_mem {x : Char} {B : List Char} (hB : x ∉ B) (A : List Char) :
    ∃ init last, A.splitOn x = init ++ [last] ∧ (A ++ B).splitOn x = init ++ [last ++ B] := by
  induction A with
  | nil => exact ⟨[], [], by simp, by simpa using List.splitOn_eq_singleton hB⟩
  | cons a A ih =>
    obtain ⟨init, last, hA, hAB⟩ := ih
    rw [List.cons_append, List.splitOn_cons_eq_if_modifyHead, List.splitOn_cons_eq_if_modifyHead,
      hA, hAB]
    split
    · exact ⟨[] :: init, last, rfl, rfl⟩
    · cases init with
      | nil => exact ⟨[], a :: last, rfl, rfl⟩
      | cons i init => exact ⟨(a :: i) :: init, last, rfl, rfl⟩

/-- The first occurrence of a character cuts a text in two. -/
theorem exists_eq_append_of_mem {x : Char} {s : List Char} (h : x ∈ s) :
    ∃ s₁ s₂, s = s₁ ++ x :: s₂ ∧ x ∉ s₁ := by
  induction s with
  | nil => simp at h
  | cons a s ih =>
    by_cases ha : a = x
    · exact ⟨[], s, by rw [ha]; rfl, by simp⟩
    · obtain ⟨s₁, s₂, rfl, hs₁⟩ := ih (by simpa [Ne.symm ha] using h)
      exact ⟨a :: s₁, s₂, rfl, by simp [Ne.symm ha, hs₁]⟩

theorem pathParts_eq (path : String) :
    pathParts path = ((path.toList.splitOn '/').map String.ofList).filter (· != "") := rfl

/-- A path that ends in a nonempty text with no separator has, as its last part, that text after
the last piece of what comes before. -/
theorem getLast?_pathParts {path : String} {A B : List Char} (hp : path.toList = A ++ B)
    (hB : '/' ∉ B) (hne : B ≠ []) :
    ∃ init last, A.splitOn '/' = init ++ [last] ∧
      (pathParts path).getLast? = some (String.ofList (last ++ B)) := by
  obtain ⟨init, last, hA, hAB⟩ := splitOn_append_of_not_mem hB A
  refine ⟨init, last, hA, ?_⟩
  have hlast : (String.ofList (last ++ B) != "") = true := by simp [← String.toList_inj, hne]
  rw [pathParts_eq, hp, hAB, List.map_append, List.filter_append, List.map_singleton,
    List.filter_cons_of_pos (p := fun x => x != "") hlast, List.filter_nil, List.getLast?_concat]

/-- A nonempty piece followed by a separator and a nonempty end with no separator is a part of
the path before its last. -/
theorem mem_dropLast_pathParts {path : String} {A C B : List Char}
    (hp : path.toList = A ++ '/' :: (C ++ B)) (hB : '/' ∉ B) (hne : B ≠ []) :
    ∃ init last, A.splitOn '/' = init ++ [last] ∧
      (last ≠ [] → String.ofList last ∈ (pathParts path).dropLast) := by
  obtain ⟨init, last, hA, -⟩ := splitOn_append_of_not_mem (x := '/') (B := []) (by simp) A
  obtain ⟨init₂, last₂, -, hCB⟩ := splitOn_append_of_not_mem hB C
  refine ⟨init, last, hA, fun hl => ?_⟩
  have hfl : (String.ofList last != "") = true := by simp [← String.toList_inj, hl]
  have hfl₂ : (String.ofList (last₂ ++ B) != "") = true := by simp [← String.toList_inj, hne]
  rw [pathParts_eq, hp, List.splitOn_append_cons_self, hA, hCB]
  simp only [List.map_append, List.map_singleton, List.filter_append,
    List.filter_cons_of_pos (p := fun x => x != "") hfl,
    List.filter_cons_of_pos (p := fun x => x != "") hfl₂, List.filter_nil]
  rw [← List.append_assoc, List.dropLast_concat]
  simp

end PinWave.Directory
