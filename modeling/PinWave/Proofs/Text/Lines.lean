import PinWave.Text.Blank
/-!
# Trimming and lines

Text read by the library is cut into lines and each line trimmed before it is looked at. Two
facts carry every round trip through that reading. Trimming ignores blanks at the end, however
they got there: a carriage return that the line split keeps or drops, or blanks trimmed off
once already. And text written as lines, each ended by a line feed and none holding one, is
cut back into exactly those lines, each without a final carriage return.

## Main statements
* `Text.trimChars_append_blanks`, `Text.trimChars_dropReturn`, `Text.trimChars_trimEnd`: blanks
  at the end do not change a trimmed text.
* `Text.trimChars_eq_self`: text with no blank at either end is its own trim.
* `Text.trimChars_idem`: trimming twice trims nothing more.
* `Text.lineChars_ended`: ended lines are read back as themselves.
* `Text.newline_not_mem_lines`: no line holds a line feed.
-/

namespace PinWave.Text

/-! ## Taking and dropping a prefix -/

section Prefix

variable {p : Char → Bool} {t : List Char}

theorem takeWhile_of_head (ht : ∀ c ∈ t.head?, p c = false) : t.takeWhile p = [] := by
  cases t with
  | nil => rfl
  | cons c t => simp [ht c rfl]

theorem dropWhile_of_head (ht : ∀ c ∈ t.head?, p c = false) : t.dropWhile p = t := by
  cases t with
  | nil => rfl
  | cons c t => simp [ht c rfl]

end Prefix

/-! ## Pieces between separators -/

/-- Every piece of a split holds characters of the text other than the separator. -/
theorem mem_of_mem_splitOn {xs piece : List Char} {a c : Char} (hp : piece ∈ xs.splitOn a)
    (hc : c ∈ piece) : c ∈ xs ∧ c ≠ a := by
  induction xs generalizing piece with
  | nil => simp_all [List.splitOn_nil]
  | cons x xs ih =>
    rw [List.splitOn_cons_eq_if_modifyHead] at hp
    split at hp
    · rename_i hx
      rcases List.mem_cons.1 hp with rfl | hp
      · simp at hc
      · exact ⟨List.mem_cons_of_mem _ (ih hp hc).1, (ih hp hc).2⟩
    · rename_i hx
      obtain ⟨h, t, ht⟩ := List.exists_cons_of_ne_nil (List.splitOn_ne_nil a xs)
      rw [ht, List.modifyHead_cons] at hp
      rcases List.mem_cons.1 hp with rfl | hp
      · rcases List.mem_cons.1 hc with rfl | hc
        · exact ⟨List.mem_cons_self, by simpa using hx⟩
        · have := ih (by rw [ht]; exact List.mem_cons_self) hc
          exact ⟨List.mem_cons_of_mem _ this.1, this.2⟩
      · have := ih (by rw [ht]; exact List.mem_cons_of_mem _ hp) hc
        exact ⟨List.mem_cons_of_mem _ this.1, this.2⟩

/-! ## The ends of a joined text -/

theorem head?_intercalate (x : Char) (L : List (List Char)) {l : List Char} (hl : l ≠ []) :
    ([x].intercalate (l :: L)).head? = l.head? := by
  cases L with
  | nil => simp
  | cons m L =>
    obtain ⟨c, cs, rfl⟩ := List.exists_cons_of_ne_nil hl
    simp

theorem getLast?_intercalate (x : Char) (L : List (List Char)) {l : List Char} (hl : l ≠ []) :
    ([x].intercalate (L ++ [l])).getLast? = l.getLast? := by
  induction L with
  | nil => simp
  | cons m L ih =>
    rw [List.cons_append, List.intercalate_cons_of_ne_nil (by simp), List.getLast?_append, ih]
    obtain ⟨ys, c, rfl⟩ := List.eq_nil_or_concat l |>.resolve_left hl
    simp

theorem mem_intercalate {x c : Char} {L : List (List Char)} (h : c ∈ [x].intercalate L) :
    c = x ∨ ∃ l ∈ L, c ∈ l := by
  induction L with
  | nil => simp at h
  | cons l L ih =>
    cases L with
    | nil => exact .inr ⟨l, List.mem_singleton_self l, by simpa using h⟩
    | cons l' L =>
      rw [List.intercalate_cons_cons, List.mem_append, List.mem_append, List.mem_singleton] at h
      rcases h with (h | h) | h
      · exact .inr ⟨l, List.mem_cons_self, h⟩
      · exact .inl h
      · rcases ih h with h | ⟨m, hm, hc⟩
        · exact .inl h
        · exact .inr ⟨m, List.mem_cons_of_mem _ hm, hc⟩

/-! ## Blanks at the end -/

/-- Drops blanks at the end only. -/
def trimEnd (cs : List Char) : List Char := (cs.reverse.dropWhile isBlank).reverse

theorem trimChars_eq_trimEnd (cs : List Char) : trimChars cs = trimEnd (cs.dropWhile isBlank) :=
  rfl

theorem dropWhile_of_all {l : List Char} (hl : ∀ c ∈ l, isBlank c = true) :
    l.dropWhile isBlank = [] := by
  induction l with
  | nil => rfl
  | cons c l ih =>
    rw [List.dropWhile_cons_of_pos (hl c (by simp))]
    exact ih fun x hx => hl x (by simp [hx])

theorem trimEnd_append_blanks (l : List Char) {b : List Char} (hb : ∀ c ∈ b, isBlank c = true) :
    trimEnd (l ++ b) = trimEnd l := by
  have hb' : (b.reverse.dropWhile isBlank) = [] := dropWhile_of_all (by simpa using hb)
  simp [trimEnd, List.dropWhile_append, hb']

/-- Blanks added at the end are trimmed away: they are dropped from the end, or, if nothing but
blanks stands before them, from the front with the rest. -/
theorem trimChars_append_blanks (l : List Char) {b : List Char} (hb : ∀ c ∈ b, isBlank c = true) :
    trimChars (l ++ b) = trimChars l := by
  rw [trimChars_eq_trimEnd, trimChars_eq_trimEnd, List.dropWhile_append]
  split
  · rename_i h
    simp only [List.isEmpty_iff] at h
    rw [h, dropWhile_of_all hb]
  · exact trimEnd_append_blanks _ hb

/-- A text is its end-trimmed part followed by blanks. -/
theorem eq_trimEnd_append (l : List Char) :
    ∃ b, l = trimEnd l ++ b ∧ ∀ c ∈ b, isBlank c = true := by
  refine ⟨(l.reverse.takeWhile isBlank).reverse, ?_, fun c hc => ?_⟩
  · rw [trimEnd, ← List.reverse_append, List.takeWhile_append_dropWhile, List.reverse_reverse]
  · exact List.all_eq_true.1 List.all_takeWhile c (List.mem_reverse.1 hc)

theorem trimChars_trimEnd (l : List Char) : trimChars (trimEnd l) = trimChars l := by
  obtain ⟨b, hl, hb⟩ := eq_trimEnd_append l
  have h := trimChars_append_blanks (trimEnd l) hb
  rw [← hl] at h
  exact h.symm

/-- The carriage return that ends a line before its line feed is trimmed away with the other
blanks. -/
theorem trimChars_dropReturn (l : List Char) : trimChars (dropReturn l) = trimChars l := by
  unfold dropReturn
  split
  · rename_i h
    obtain ⟨ys, rfl⟩ := List.getLast?_eq_some_iff.1 h
    rw [List.dropLast_concat]
    exact (trimChars_append_blanks ys (List.forall_mem_singleton.2 (by decide))).symm
  · rfl

theorem trimChars_eq_self {cs : List Char} (hh : ∀ c ∈ cs.head?, isBlank c = false)
    (hl : ∀ c ∈ cs.getLast?, isBlank c = false) : trimChars cs = cs := by
  rw [trimChars, dropWhile_of_head hh, dropWhile_of_head (by simpa using hl), List.reverse_reverse]

theorem trimEnd_sublist (l : List Char) : (trimEnd l).Sublist l := by
  have h := (List.dropWhile_suffix isBlank (l := l.reverse)).sublist.reverse
  rwa [List.reverse_reverse] at h

/-- Trimming keeps a sublist of the text. -/
theorem trimChars_sublist (l : List Char) : (trimChars l).Sublist l :=
  (trimEnd_sublist _).trans (List.dropWhile_suffix isBlank).sublist

/-- Text that is its own trim has no blank at its start. -/
theorem head_of_trimChars_eq {l : List Char} (h : trimChars l = l) :
    ∀ c ∈ l.head?, isBlank c = false := by
  intro c hc
  obtain ⟨r, rfl⟩ : ∃ r, l = c :: r := by
    cases l with
    | nil => simp at hc
    | cons x r => simp at hc; exact ⟨r, by rw [hc]⟩
  cases hb : isBlank c
  · rfl
  · -- a blank first character is dropped, so the trim would be shorter than the text
    have hs : (trimChars (c :: r)).Sublist r := by
      rw [trimChars_eq_trimEnd, List.dropWhile_cons_of_pos hb]
      exact (trimEnd_sublist _).trans (List.dropWhile_suffix isBlank).sublist
    have := hs.length_le
    rw [h, List.length_cons] at this
    omega

/-- Text that is its own trim has no blank at its end. -/
theorem getLast_of_trimChars_eq {l : List Char} (h : trimChars l = l) :
    ∀ c ∈ l.getLast?, isBlank c = false := by
  intro c hc
  obtain ⟨r, rfl⟩ := List.getLast?_eq_some_iff.1 hc
  cases hb : isBlank c
  · rfl
  · have := (trimChars_sublist r).length_le
    rw [← trimChars_append_blanks r (b := [c]) (by simpa using hb), h, List.length_append,
      List.length_singleton] at this
    omega

theorem trimChars_of_forall {cs : List Char} (h : ∀ c ∈ cs, isBlank c = false) :
    trimChars cs = cs :=
  trimChars_eq_self (fun c hc => h c (List.mem_of_mem_head? hc))
    (fun c hc => h c (List.mem_of_getLast? hc))

theorem head?_dropWhile_isBlank {l : List Char} {c : Char} (h : c ∈ (l.dropWhile isBlank).head?) :
    isBlank c = false := by
  induction l with
  | nil => simp at h
  | cons x l ih =>
    cases hx : isBlank x
    · rw [List.dropWhile_cons_of_neg (by simp [hx])] at h
      simp only [List.head?_cons, Option.mem_def, Option.some.injEq] at h
      exact h ▸ hx
    · rw [List.dropWhile_cons_of_pos hx] at h
      exact ih h

/-- Trimming twice trims nothing more: a trim starts and ends with a character that is not
blank. -/
theorem trimChars_idem (l : List Char) : trimChars (trimChars l) = trimChars l := by
  refine trimChars_eq_self (fun c hc => ?_) (fun c hc => ?_)
  · -- the end-trimmed part is a prefix of the text whose leading blanks are gone
    obtain ⟨b, hy, -⟩ := eq_trimEnd_append (l.dropWhile isBlank)
    rw [trimChars_eq_trimEnd] at hc
    rw [Option.mem_def] at hc
    refine head?_dropWhile_isBlank (l := l) ?_
    rw [hy, List.head?_append, hc]
    rfl
  · rw [trimChars, List.getLast?_reverse] at hc
    exact head?_dropWhile_isBlank hc

theorem trimEnd_eq_self {l : List Char} (h : ∀ c ∈ l.getLast?, isBlank c = false) :
    trimEnd l = l := by
  rw [trimEnd, dropWhile_of_head (by simpa using h), List.reverse_reverse]

/-- The end of a text that is its own trim has no blank at its end. -/
theorem trimEnd_of_trimChars_eq_append {p s : List Char} (h : trimChars (p ++ s) = p ++ s) :
    trimEnd s = s := by
  refine trimEnd_eq_self fun c hc => ?_
  rw [Option.mem_def] at hc
  refine getLast_of_trimChars_eq h c ?_
  rw [List.getLast?_append, hc]
  rfl

theorem trim_eq_self_iff (s : String) : trim s = s ↔ trimChars s.toList = s.toList := by
  constructor
  · intro h
    simpa [trim] using congrArg String.toList h
  · intro h
    simp [trim, h]

/-- Text whose characters are checked one by one to be no blanks holds no blank. -/
theorem isBlank_of_all {l : List Char} (h : (l.all fun c => !isBlank c) = true) :
    ∀ c ∈ l, isBlank c = false :=
  fun c hc => by simpa using List.all_eq_true.1 h c hc

/-- Digits are not blanks. -/
theorem isBlank_of_isDigit {c : Char} (h : c.isDigit = true) : isBlank c = false := by
  simp only [Char.isDigit, Bool.and_eq_true, decide_eq_true_eq, UInt32.le_iff_toNat_le,
    ge_iff_le] at h
  have h0 : '0'.val.toNat = 48 := rfl
  have h9 : '9'.val.toNat = 57 := rfl
  simp only [isBlank, Char.toNat, Bool.or_eq_false_iff, Bool.and_eq_false_iff, decide_eq_false_iff_not,
    beq_eq_false_iff_ne]
  omega

/-- Nonempty pieces that are their own trims, joined by any separator, give a text that is its
own trim: it starts with the first piece and ends with the last. -/
theorem trimChars_intercalate (x : Char) {L : List (List Char)}
    (hL : ∀ m ∈ L, m ≠ [] ∧ trimChars m = m) : trimChars ([x].intercalate L) = [x].intercalate L := by
  cases L with
  | nil => rfl
  | cons l L =>
    have hl := hL l List.mem_cons_self
    have hlast := hL _ (List.getLast_mem (List.cons_ne_nil l L))
    refine trimChars_eq_self ?_ ?_
    · rw [head?_intercalate _ _ hl.1]
      exact head_of_trimChars_eq hl.2
    · rw [← List.dropLast_concat_getLast (List.cons_ne_nil l L), getLast?_intercalate _ _ hlast.1]
      exact getLast_of_trimChars_eq hlast.2

/-- Trimming text that starts with a non-blank prefix ending in a non-blank character trims the
rest at its end only. -/
theorem trimChars_prefix_append {pre : List Char} (hh : ∀ c ∈ pre.head?, isBlank c = false)
    (hl : ∀ c ∈ pre.getLast?, isBlank c = false) (hne : pre ≠ []) (rest : List Char) :
    trimChars (pre ++ rest) = pre ++ trimEnd rest := by
  have hh' : ∀ c ∈ (pre ++ rest).head?, isBlank c = false := by
    obtain ⟨c, cs, rfl⟩ := List.exists_cons_of_ne_nil hne
    simpa using hh
  have hl' : pre.reverse.dropWhile isBlank = pre.reverse := dropWhile_of_head (by simpa using hl)
  rw [trimChars_eq_trimEnd, dropWhile_of_head hh', trimEnd, List.reverse_append,
    List.dropWhile_append]
  split
  · rename_i h
    simp only [List.isEmpty_iff] at h
    simp [hl', trimEnd, h]
  · simp [trimEnd]

/-! ## Lines -/

/-- Lines each ended by a line feed are the lines and one empty piece joined by line feeds. -/
theorem flatMap_ended (ls : List (List Char)) :
    ls.flatMap (· ++ ['\n']) = ['\n'].intercalate (ls ++ [[]]) := by
  induction ls with
  | nil => rfl
  | cons l ls ih =>
    rw [List.flatMap_cons, ih, List.cons_append, List.intercalate_cons_of_ne_nil (by simp),
      List.append_assoc]

theorem dropReturn_sublist (l : List Char) : (dropReturn l).Sublist l := by
  unfold dropReturn
  split
  · exact List.dropLast_sublist _
  · exact List.Sublist.refl _

/-- No line holds a line feed. -/
theorem newline_not_mem_lineChars {cs l : List Char} (h : l ∈ lineChars cs) : '\n' ∉ l := by
  have hpiece : ∀ p ∈ cs.splitOn '\n', '\n' ∉ p := fun p hp hn => (mem_of_mem_splitOn hp hn).2 rfl
  have hended : ∀ l ∈ (cs.splitOn '\n').dropLast.map dropReturn, '\n' ∉ l := by
    intro l hl hn
    obtain ⟨p, hp, rfl⟩ := List.mem_map.1 hl
    exact hpiece p (List.dropLast_subset _ hp) ((dropReturn_sublist p).subset hn)
  unfold lineChars at h
  dsimp only at h
  split at h
  · rename_i last hlast
    split at h
    · exact hended l h
    · rcases List.mem_append.1 h with h | h
      · exact hended l h
      · rw [List.mem_singleton.1 h]
        exact hpiece last (List.mem_of_getLast? hlast)
  · exact hended l h

theorem newline_not_mem_lines {s l : String} (h : l ∈ lines s) : '\n' ∉ l.toList := by
  obtain ⟨cs, hcs, rfl⟩ := List.mem_map.1 h
  rw [String.toList_ofList]
  exact newline_not_mem_lineChars hcs

/-- Lines written each with its line feed, none holding one, are cut back into themselves, less
a carriage return at the end of a line. -/
theorem lineChars_ended {ls : List (List Char)} (h : ∀ l ∈ ls, '\n' ∉ l) :
    lineChars (ls.flatMap (· ++ ['\n'])) = ls.map dropReturn := by
  have hsplit : (ls.flatMap (· ++ ['\n'])).splitOn '\n' = ls ++ [[]] := by
    rw [flatMap_ended]
    refine List.splitOn_intercalate _ (fun l hl => ?_) (by simp)
    rcases List.mem_append.1 hl with hl | hl
    · exact h l hl
    · simp at hl
      simp [hl]
  simp [lineChars, hsplit]

end PinWave.Text
