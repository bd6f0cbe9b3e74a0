import PinWave.Proofs.Decimal.Nearest
/-!
# The shortest digits read back

The digit search tries grids of powers of ten from the coarsest down and keeps a neighbour of
the magnitude that lies in its rounding interval. Here the search is shown never to fall through
to its last resort: on the grid of seventeen significant digits the spacing is below the width of
the interval, so of the two grid points around the magnitude one lies inside. Whatever grid
answers, its digits lie in the interval, and moving trailing zeros into the exponent keeps the
value; so the shortest digits of a finite nonzero magnitude read back as that magnitude.

## Main statements
* `Binary.readsBack_floor_or_succ`: a grid finer than the interval hits it next to the magnitude.
* `Binary.search_brackets`: the search's digits lie in the interval.
* `Binary.shortest_brackets`: so do the shortest digits.
-/

namespace PinWave.Decimal

namespace Binary

variable {b : Binary} {r : ℚ}

theorem den_value_pos (b : Binary) : 0 < b.value.den := Frac.den_scaled_pos _ _ _

theorem num_value_pos (hm : 0 < b.man) : 0 < b.value.num := Frac.num_scaled_pos hm _ _

/-- The magnitude lies strictly inside its interval. -/
theorem lower_lt_value (hm : 0 < b.man) : b.lower.toRat < b.value.toRat := by
  rw [toRat_lower hm, toRat_value]
  have hE : (0 : ℚ) < 2 ^ b.exp := by positivity
  split <;> nlinarith

theorem value_lt_upper (b : Binary) : b.value.toRat < b.upper.toRat := by
  rw [toRat_upper, toRat_value]
  have hE : (0 : ℚ) < 2 ^ b.exp := by positivity
  nlinarith

/-- A point strictly inside the interval reads back, whatever the parity of the significand. -/
theorem Brackets.of_lt (h1 : b.lower.toRat < r) (h2 : r < b.upper.toRat) : b.Brackets r := by
  unfold Brackets
  split
  · exact ⟨h1.le, h2.le⟩
  · exact ⟨h1, h2⟩

/-- Of the two points of a grid around the magnitude, one lies inside the interval when the
spacing is below its width: the lower one if it passes the lower end, else the upper one, which
is then less than a width above the lower end. -/
theorem readsBack_floor_or_succ (hm : 0 < b.man) {s : ℤ}
    (hw : (10 : ℚ) ^ s < b.upper.toRat - b.lower.toRat) :
    b.readsBack (b.value.floorTen s) s = true ∨ b.readsBack (b.value.floorTen s + 1) s = true := by
  obtain ⟨hc1, hc2⟩ := Frac.floorTen_spec b.den_value_pos s
  have hlo := lower_lt_value hm
  have hhi := value_lt_upper b
  simp only [readsBack_iff]
  push_cast
  by_cases hc : b.lower.toRat < b.value.floorTen s * 10 ^ s
  · exact .inl (Brackets.of_lt hc (by linarith))
  · refine .inr (Brackets.of_lt (by linarith) ?_)
    linarith [add_mul (b.value.floorTen s : ℚ) 1 (10 ^ s)]

theorem onGrid_readsBack {s : ℤ} {c : ℕ} (h : b.onGrid s = some c) : b.readsBack c s = true := by
  unfold onGrid at h
  dsimp only at h
  split at h
  · rename_i hboth
    simp only [Bool.and_eq_true] at hboth
    split at h <;> cases h
    · exact hboth.1
    · exact hboth.2
  · split at h
    · cases h
      assumption
    · split at h
      · cases h
        assumption
      · cases h

theorem onGrid_isSome {s : ℤ}
    (h : b.readsBack (b.value.floorTen s) s = true ∨ b.readsBack (b.value.floorTen s + 1) s = true) :
    (b.onGrid s).isSome := by
  unfold onGrid
  dsimp only
  split
  · split <;> rfl
  · split
    · rfl
    · split
      · rfl
      · rename_i hlo hhi
        rcases h with h | h
        · exact absurd h hlo
        · exact absurd h hhi

/-- The search answers from the first grid that has a neighbour in the interval; when some grid
of the list has one, that answer reads back. -/
theorem search_readsBack (top : ℤ) (ns : List ℕ) (h : ∃ n ∈ ns, (b.onGrid (top - n)).isSome) :
    b.readsBack (b.search top ns).1 (b.search top ns).2 = true := by
  induction ns with
  | nil => simp at h
  | cons n ns ih =>
    unfold search
    split
    · exact onGrid_readsBack ‹_›
    · rename_i hnone
      obtain ⟨k, hk, hks⟩ := h
      rcases List.mem_cons.1 hk with rfl | hk
      · simp [hnone] at hks
      · exact ih ⟨k, hk, hks⟩

/-- The spacing of the grid of seventeen significant digits is below the width of the interval:
`10^(log₁₀ v - 16) ≤ v / 10^16`, and `v / 10^16` is below `2^E` since `2^53 < 10^16`, and below
`3/4 · 2^E` at the bottom of a binade, where `v = 2^52 · 2^E`. -/
theorem ten_zpow_lt_width (hb : b.Legal) (hm : 0 < b.man) :
    (10 : ℚ) ^ (b.value.log10 - 16) < b.upper.toRat - b.lower.toRat := by
  have hv := (Frac.log10_spec (num_value_pos hm) b.den_value_pos).1
  rw [toRat_value] at hv
  have hE : (0 : ℚ) < 2 ^ b.exp := by positivity
  have hsp : (10 : ℚ) ^ (b.value.log10 - 16) * 10 ^ 16 ≤ b.man * 2 ^ b.exp := by
    rw [zpow_sub₀ (by norm_num)]
    field_simp
    exact hv
  have hM : (b.man : ℚ) + 1 ≤ 2 ^ 53 := by exact_mod_cast hb.man_lt
  rw [toRat_upper, toRat_lower hm]
  split
  · rename_i hl
    have hman : (b.man : ℚ) = 2 ^ 52 := by exact_mod_cast (hb.lowerClose_iff.1 hl).1
    rw [hman] at hsp
    nlinarith
  · nlinarith

end Binary

/-- Moving trailing zeros into the exponent keeps the value. -/
theorem stripZeros_value (c : ℕ) (s : ℤ) :
    ((stripZeros c s).1 : ℚ) * 10 ^ (stripZeros c s).2 = c * 10 ^ s := by
  induction c, s using stripZeros.induct with
  | case1 c s h ih =>
    rw [stripZeros, dif_pos h, ih, zpow_add_one₀ (by norm_num)]
    have : ((c / 10 : ℕ) : ℚ) * 10 = c := by exact_mod_cast Nat.div_mul_cancel (Nat.dvd_of_mod_eq_zero h.2)
    rw [← this]
    ring
  | case2 c s h => rw [stripZeros_of_not h]

namespace Binary

variable {b : Binary}

theorem search_brackets (hb : b.Legal) (hm : 0 < b.man) :
    b.Brackets ((b.search b.value.log10 (List.range 17)).1 *
      10 ^ (b.search b.value.log10 (List.range 17)).2) := by
  rw [← readsBack_iff]
  refine search_readsBack _ _ ⟨16, by simp, onGrid_isSome (readsBack_floor_or_succ hm ?_)⟩
  exact_mod_cast ten_zpow_lt_width hb hm

/-- The shortest digits of a finite nonzero magnitude lie in its rounding interval. -/
theorem shortest_brackets (hb : b.Legal) (hm : 0 < b.man) :
    b.Brackets (b.shortest.1 * 10 ^ b.shortest.2) := by
  unfold shortest
  dsimp only
  rw [stripZeros_value]
  exact search_brackets hb hm

end Binary

end PinWave.Decimal
