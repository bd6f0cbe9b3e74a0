import PinWave.Proofs.Convert.AsciiRoundTrip
/-!
# Expanding an ASCII wave

Expansion gives each event of a wave `k` time steps. It repeats every level of a string `k`
times and then holds the result at its last level up to `k` times the wave's length, so a string
shorter than the wave holds its last event to the end and an empty string stays low. Step `i`
thus reads event `i / k` of the string, held (`heldLevel`); with `k = 0` there are no steps.

## Main statements
* `heldLevel_flatMap_replicate`: holding a string whose levels are repeated `k` times.
* `AsciiWave.expand_eq_heldLevel`: the trace of every signal of an expanded wave.
-/

namespace PinWave

/-- The last step of a string of `n` events of `k` steps each lies in its last event. -/
theorem mul_sub_one_div (n : Nat) {k : Nat} (hk : 0 < k) : (n * k - 1) / k = n - 1 := by
  cases n with
  | zero => simp
  | succ m =>
    rw [show (m + 1) * k - 1 = (k - 1) + k * m by rw [Nat.succ_mul, Nat.mul_comm m k]; omega,
      Nat.add_mul_div_left _ _ hk, Nat.div_eq_of_lt (by omega)]
    omega

/-- Holding a string whose levels are each repeated `k` times reads, at step `i`, the string
held at event `i / k`. -/
theorem heldLevel_flatMap_replicate (b : List Bool) {k : Nat} (hk : 0 < k) (i : Nat) :
    heldLevel (b.flatMap (List.replicate k ·)) i = heldLevel b (i / k) := by
  have hget : ∀ j, (b.flatMap (List.replicate k ·))[j]? = b[j / k]? := by
    intro j
    simpa using getElem?_flatMap_replicate b hk id j
  have hlen : (b.flatMap (List.replicate k ·)).length = b.length * k := by
    simp [List.length_flatMap, Nat.mul_comm]
  -- the step read is `i`, or the last step when `i` lies past the end; both divide by `k` into
  -- the event read
  have hstep : min i (b.length * k - 1) / k = min (i / k) (b.length - 1) := by
    have hmono : Monotone (· / k) := fun _ _ h => Nat.div_le_div_right h
    rw [hmono.map_min, mul_sub_one_div _ hk]
  simp only [heldLevel, List.getD_eq_getElem?_getD, hget, hlen, hstep]

namespace AsciiWave

/-- Expanding a wave by `k` keeps its signals in order and gives each a trace of `k` times the
wave's length, whose step `i` is the signal's string held at event `i / k`: the level of that
event, the last level past the end of a short string, and low for an empty one. With `k = 0`
every trace is empty. -/
theorem expand_eq_heldLevel (w : AsciiWave) (k : Nat) :
    w.expand k = w.signals.map fun p =>
      (p.1, (List.range (w.length * k)).map fun i => heldLevel p.2 (i / k)) := by
  refine List.map_congr_left fun ⟨n, b⟩ hp => ?_
  have hsteps : (b.flatMap (List.replicate k ·)).length ≤ w.length * k := by
    rw [List.length_flatMap]
    simpa [Nat.mul_comm] using Nat.mul_le_mul_right k (le_length hp)
  dsimp only
  rcases Nat.eq_zero_or_pos k with rfl | hk
  · simp
  · rw [holdTo_eq_map_range hsteps, List.take_of_length_le (by simp)]
    exact congrArg (n, ·) (List.map_congr_left fun i _ => heldLevel_flatMap_replicate b hk i)

example : (⟨[("a", [true, false]), ("b", [false, true, true])]⟩ : AsciiWave).expand 2 =
    [("a", [true, true, false, false, false, false]),
      ("b", [false, false, true, true, true, true])] := by
  decide

end AsciiWave

end PinWave
