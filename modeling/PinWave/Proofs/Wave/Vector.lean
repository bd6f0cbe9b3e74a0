import PinWave.Wave.Vector
import PinWave.Proofs.Decimal.RoundTrip
/-!
# Reading a vector line back

A vector is written as its words joined by commas, a word equal to the one before it as `@`.
Reading undoes writing for every vector, the empty one and long runs of repeats included. The
line has no blanks, so trimming leaves it alone; no field holds a comma, so the cut at commas
gives the fields back; and the reader, which keeps the words read so far last first, meets `@`
exactly where the word before it is the one to repeat.

## Main statements
* `VectorLine.readFields_fields`: the reader takes the fields of a run of words back to the run.
* `VectorLine.decode_encode`: reading a written vector gives the vector.
-/

namespace PinWave.VectorLine

open Text

/-- A word written in full reads as itself. -/
theorem readWhole?_toString (n bound : ℕ) (h : n ≤ bound) :
    Decimal.readWhole? (toString n) bound = some n := by
  obtain ⟨d, ds, hds, hd⟩ := Decimal.exists_digitChars_cons n
  have hall := Decimal.all_isDigit_digitChars n
  have hv := Decimal.digitsValue_digitChars n
  have hplus : d ≠ '+' := by rintro rfl; simp at hd
  have htl : (toString n).toList = d :: ds := by
    rw [Nat.toString_eq_repr, Nat.toList_repr]
    exact hds
  unfold Decimal.readWhole?
  rw [htl]
  split
  · rename_i heq
    exact absurd (List.cons.inj heq).1 hplus
  · rw [← hds] at ⊢
    simp [hall, hv, h, Decimal.digitChars_ne_nil]

theorem toString_ne_repeat (n : ℕ) : toString n ≠ "@" := by
  intro h
  obtain ⟨d, ds, hds, hd⟩ := Decimal.exists_digitChars_cons n
  have htl := congrArg String.toList h
  rw [Nat.toString_eq_repr, Nat.toList_repr] at htl
  change Decimal.digitChars n = ['@'] at htl
  rw [hds] at htl
  obtain ⟨rfl, -⟩ := List.cons.inj htl
  simp at hd

/-- Reading the fields of a run of words, with the word before the run first among those read
so far, appends the run. -/
theorem readFields_fields (vs : List UInt64) (i : ℕ) (acc : List UInt64) (prev : Option UInt64)
    (hprev : acc.head? = prev) :
    readFields i acc (fields prev vs) = .ok (acc.reverse ++ vs) := by
  induction vs generalizing i acc prev with
  | nil => simp [fields, readFields]
  | cons v vs ih =>
    simp only [fields]
    unfold readFields
    by_cases hv : prev = some v
    · -- a repeat: the word before is the one read last
      subst hv
      obtain ⟨rest, rfl⟩ : ∃ rest, acc = v :: rest := by
        cases acc with
        | nil => simp at hprev
        | cons a rest => simp at hprev; exact ⟨rest, by rw [hprev]⟩
      rw [if_pos (by simp [field])]
      dsimp only
      rw [ih (i + 1) (v :: v :: rest) (some v) rfl]
      simp
    · rw [if_neg (by simp only [field, hv, if_false]; exact toString_ne_repeat _)]
      simp only [field, hv, if_false]
      rw [readWhole?_toString _ _ (by have := v.toNat_lt; omega)]
      dsimp only
      rw [UInt64.ofNat_toNat, ih (i + 1) (v :: acc) (some v) rfl]
      simp

/-- Every field is nonempty and made of characters that are neither commas nor blanks. -/
theorem mem_fields {prev : Option UInt64} {vs : List UInt64} {f : String}
    (hf : f ∈ fields prev vs) : f.toList ≠ [] ∧ ∀ c ∈ f.toList, c ≠ ',' ∧ isBlank c = false := by
  induction vs generalizing prev with
  | nil => simp [fields] at hf
  | cons v vs ih =>
    rcases List.mem_cons.1 hf with rfl | hf
    · unfold field
      split
      · refine ⟨by decide, fun c hc => ?_⟩
        rw [show "@".toList = ['@'] from rfl, List.mem_singleton] at hc
        rw [hc]
        decide
      · obtain ⟨d, ds, hds, -⟩ := Decimal.exists_digitChars_cons v.toNat
        rw [Nat.toString_eq_repr, Nat.toList_repr]
        refine ⟨Nat.toDigits_ne_nil, fun c hc => ?_⟩
        have hdig := Decimal.isDigit_of_mem_digitChars hc
        exact ⟨by rintro rfl; simp at hdig, isBlank_of_isDigit hdig⟩
    · exact ih hf

/-- A vector line holds no blank. -/
theorem isBlank_encode (vs : List UInt64) : ∀ c ∈ (encode vs).toList, isBlank c = false := by
  intro c hc
  rw [encode, String.toList_intercalate] at hc
  rcases mem_intercalate hc with rfl | ⟨l, hl, hcl⟩
  · decide
  · obtain ⟨f, hf, rfl⟩ := List.mem_map.1 hl
    exact ((mem_fields hf).2 c hcl).2

/-- Reading a written vector gives the vector back. -/
theorem decode_encode (vs : List UInt64) : decode (encode vs) = .ok vs := by
  have hline : (encode vs).toList = [','].intercalate ((fields none vs).map String.toList) := by
    simp [encode, String.toList_intercalate]
  cases hfs : fields none vs with
  | nil =>
    have hvs : vs = [] := by cases vs <;> simp_all [fields]
    subst hvs
    rfl
  | cons f fs =>
    have hmem : ∀ g ∈ f :: fs, g.toList ≠ [] ∧ ∀ c ∈ g.toList, c ≠ ',' ∧ isBlank c = false :=
      fun g hg => mem_fields (hfs ▸ hg)
    have hf := hmem f List.mem_cons_self
    -- the line holds no blank at its ends, so trimming leaves it alone
    have htrim : trimChars (encode vs).toList = (encode vs).toList := by
      rw [hline, hfs]
      refine trimChars_intercalate _ fun m hm => ?_
      obtain ⟨g, hg, rfl⟩ := List.mem_map.1 hm
      exact ⟨(hmem g hg).1, trimChars_of_forall fun c hc => ((hmem g hg).2 c hc).2⟩
    -- no field holds a comma, so the cut at commas gives the fields back
    have hsplit : (encode vs).toList.splitOn ',' = (f :: fs).map String.toList := by
      rw [hline, hfs]
      refine List.splitOn_intercalate _ (fun m hm => ?_) (by simp)
      obtain ⟨g, hg, rfl⟩ := List.mem_map.1 hm
      exact fun h => ((hmem g hg).2 ',' h).1 rfl
    have htok : ((f :: fs).map String.toList).map (fun t => String.ofList (trimChars t)) = f :: fs := by
      rw [List.map_map]
      refine (List.map_congr_left fun g hg => ?_).trans (List.map_id _)
      simp [trimChars_of_forall fun c hc => ((hmem g hg).2 c hc).2]
    have hne : (encode vs).toList ≠ [] := by
      rw [hline, hfs, List.map_cons]
      intro h
      have := congrArg List.head? h
      rw [head?_intercalate _ _ hf.1] at this
      obtain ⟨c, cs, hc⟩ := List.exists_cons_of_ne_nil hf.1
      simp [hc] at this
    unfold decode
    dsimp only
    rw [htrim, if_neg (by simpa using hne), hsplit, htok, ← hfs, readFields_fields vs 0 [] none rfl]
    rfl

/-- Reading a line does not see a carriage return at its end. -/
theorem decode_dropReturn (l : List Char) :
    decode (String.ofList (dropReturn l)) = decode (String.ofList l) := by
  simp only [decode, String.toList_ofList, trimChars_dropReturn]

end PinWave.VectorLine
