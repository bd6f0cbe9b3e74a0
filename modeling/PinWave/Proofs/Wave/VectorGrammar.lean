import PinWave.Proofs.Wave.Vector
import PinWave.Wave.File
/-!
# The grammar of a vector line

A vector line is read as its tokens: the line trimmed, cut at commas, and each piece trimmed
(`VectorLine.tokens`). A token is the text of a 64-bit word, an optional `+` then at least one
ASCII digit of value below `2^64` (`VectorLine.WordText`), or `@`, which repeats the word before
it and so cannot come first (`VectorLine.TokenWord`). A blank line is the empty vector. Any
other line is read exactly when its tokens in order stand for words (`VectorLine.Denotes`), and
is otherwise refused at the first token that stands for none: a leading `@` as such, any other
token with its index. A wave file reports that refusal at its first line.

The reader keeps the words read so far last first, so the word a repeat copies is the head of
what it has read; one lemma says what the reader does with a token that stands for a word and
one what it does with any other, and the run lemmas follow the tokens from them.

## Main definitions
* `VectorLine.tokens`, `VectorLine.WordText`, `VectorLine.TokenWord`, `VectorLine.Denotes`.
* `VectorLine.Fault.at`: the fault reported for a token that stands for no word.

## Main statements
* `VectorLine.readWhole?_eq_some_iff`: the whole-number reader reads exactly the texts of words.
* `VectorLine.decode_grammar`: a line is read exactly when it is blank or its tokens stand for
  words, and is refused at the first token that stands for none.
-/

namespace PinWave.VectorLine

open Text

/-! ## Tokens -/

/-- The tokens of a vector line: the trimmed line cut at commas, each piece trimmed. -/
def tokens (line : String) : List String :=
  ((trimChars line.toList).splitOn ',').map fun f => String.ofList (trimChars f)

/-- The text of the 64-bit word `n`: an optional `+`, then at least one ASCII digit, of value
below `2^64`. -/
def WordText (tok : String) (n : Nat) : Prop :=
  ∃ ds, (tok.toList = ds ∨ tok.toList = '+' :: ds) ∧ ds ≠ [] ∧ (∀ c ∈ ds, c.isDigit) ∧
    Decimal.digitsValue ds = n ∧ n < 2 ^ 64

/-- The word a token stands for after the word `prev`, if there is one: `@` repeats `prev`, and
the text of a word stands for that word. -/
def TokenWord (prev : Option UInt64) (tok : String) (w : UInt64) : Prop :=
  tok = "@" ∧ prev = some w ∨ WordText tok w.toNat

/-- Tokens that stand in order for words, the first after the word `prev`. -/
inductive Denotes : Option UInt64 → List String → List UInt64 → Prop where
  | nil {prev : Option UInt64} : Denotes prev [] []
  | cons {prev : Option UInt64} {tok : String} {toks : List String} {w : UInt64}
      {ws : List UInt64} : TokenWord prev tok w → Denotes (some w) toks ws →
      Denotes prev (tok :: toks) (w :: ws)

/-- The fault reported for a token at index `i` that stands for no word: a repeat, which can
only fail as the first token, or a bad token with its index. -/
def Fault.at (i : Nat) (tok : String) : Fault :=
  if tok = "@" then .leadingRepeat else .badToken tok i

/-- The whole-number reader, bounded to 64 bits, reads exactly the texts of words. -/
theorem readWhole?_eq_some_iff (tok : String) (n : Nat) :
    Decimal.readWhole? tok (2 ^ 64 - 1) = some n ↔ WordText tok n := by
  unfold Decimal.readWhole? WordText
  rcases hcs : tok.toList with _ | ⟨c, cs⟩
  · simp
  · by_cases hc : c = '+'
    · -- the reader drops the sign, and a string of digits cannot keep it
      have hplus : ('+' : Char).isDigit = false := by decide
      subst hc
      simp [hplus]
      grind
    · simp [hc]
      grind

theorem not_wordText_repeat (n : Nat) : ¬ WordText "@" n := by
  rintro ⟨ds, hds, -, hall, -⟩
  have h : "@".toList = ['@'] := rfl
  rw [h] at hds
  rcases hds with rfl | hds
  · exact absurd (hall '@' List.mem_cons_self) (by decide)
  · simp at hds

/-! ## One token -/

section Step

variable {acc : List UInt64} {tok : String}

/-- A token that stands for a word after the last word read is read as that word. -/
theorem readFields_cons_of_tokenWord {w : UInt64} (h : TokenWord acc.head? tok w) (i : Nat)
    (rest : List String) : readFields i acc (tok :: rest) = readFields (i + 1) (w :: acc) rest := by
  rcases h with ⟨rfl, hprev⟩ | hword
  · obtain ⟨t, rfl⟩ : ∃ t, acc = w :: t := by
      cases acc with
      | nil => cases hprev
      | cons a t => exact ⟨t, by simpa using hprev⟩
    simp [readFields]
  · have hne : tok ≠ "@" := fun h => not_wordText_repeat _ (h ▸ hword)
    rw [readFields.eq_def]
    dsimp only
    rw [if_neg hne, (readWhole?_eq_some_iff tok _).2 hword]
    simp only [UInt64.ofNat_toNat]

/-- A token that stands for no word after the last word read is refused. -/
theorem readFields_cons_of_not (h : ∀ w, ¬ TokenWord acc.head? tok w) (i : Nat)
    (rest : List String) : readFields i acc (tok :: rest) = .error (Fault.at i tok) := by
  by_cases hrep : tok = "@"
  · -- a repeat after a word stands for it, so nothing has been read
    subst hrep
    cases acc with
    | nil => simp [readFields, Fault.at]
    | cons w acc => exact absurd (Or.inl ⟨rfl, rfl⟩) (h w)
  · cases hr : Decimal.readWhole? tok (2 ^ 64 - 1) with
    | none =>
      unfold readFields
      rw [if_neg hrep, hr, Fault.at, if_neg hrep]
    | some n =>
      -- a word that is read lies below `2^64`, so the token is the text of a 64-bit word
      have hword := (readWhole?_eq_some_iff tok n).1 hr
      have hlt : n < 2 ^ 64 := by
        obtain ⟨_, _, _, _, _, hlt⟩ := hword
        exact hlt
      refine absurd (Or.inr ?_) (h (UInt64.ofNat n))
      rwa [UInt64.toNat_ofNat_of_lt' hlt]

end Step

/-! ## Tokens in order -/

/-- Tokens that stand for words are read as those words, after the words read before. -/
theorem readFields_of_denotes {prev : Option UInt64} {toks : List String} {ws : List UInt64}
    (h : Denotes prev toks ws) :
    ∀ (i : Nat) (acc : List UInt64), acc.head? = prev →
      readFields i acc toks = .ok (acc.reverse ++ ws) := by
  induction h with
  | nil =>
    intro i acc _
    simp [readFields]
  | cons hw _ ih =>
    intro i acc hprev
    rw [readFields_cons_of_tokenWord (hprev ▸ hw), ih (i + 1) _ rfl]
    simp

/-- What is read from tokens is the words they stand for, after the words read before. -/
theorem denotes_of_readFields {toks : List String} :
    ∀ {i : Nat} {acc v : List UInt64}, readFields i acc toks = .ok v →
      ∃ ws, v = acc.reverse ++ ws ∧ Denotes acc.head? toks ws := by
  induction toks with
  | nil =>
    intro i acc v h
    cases h
    exact ⟨[], by simp, .nil⟩
  | cons tok rest ih =>
    intro i acc v h
    by_cases hw : ∃ w, TokenWord acc.head? tok w
    · obtain ⟨w, hw⟩ := hw
      rw [readFields_cons_of_tokenWord hw] at h
      obtain ⟨ws, rfl, hws⟩ := ih h
      exact ⟨w :: ws, by simp, .cons hw hws⟩
    · rw [readFields_cons_of_not (not_exists.1 hw)] at h
      cases h

/-- A refusal names the first token that stands for no word, the tokens before it read. -/
theorem firstBad_of_readFields {toks : List String} {f : Fault} :
    ∀ {i : Nat} {acc : List UInt64}, readFields i acc toks = .error f →
      ∃ pre bad post ws, toks = pre ++ bad :: post ∧ Denotes acc.head? pre ws ∧
        (∀ w, ¬ TokenWord (ws.reverse ++ acc).head? bad w) ∧ f = Fault.at (i + pre.length) bad := by
  induction toks with
  | nil =>
    intro i acc h
    cases h
  | cons tok rest ih =>
    intro i acc h
    by_cases hw : ∃ w, TokenWord acc.head? tok w
    · obtain ⟨w, hw⟩ := hw
      rw [readFields_cons_of_tokenWord hw] at h
      obtain ⟨pre, bad, post, ws, rfl, hpre, hbad, rfl⟩ := ih h
      refine ⟨tok :: pre, bad, post, w :: ws, rfl, .cons hw hpre, ?_, ?_⟩
      · simpa using hbad
      · simp only [List.length_cons]
        rw [Nat.add_assoc, Nat.add_comm 1]
    · rw [readFields_cons_of_not (not_exists.1 hw)] at h
      cases h
      exact ⟨[], tok, rest, [], rfl, .nil, by simpa using hw, rfl⟩

/-- Reading is refused at the first token that stands for no word. -/
theorem readFields_of_firstBad {prev : Option UInt64} {pre : List String} {ws : List UInt64}
    (hpre : Denotes prev pre ws) {bad : String} (post : List String) :
    ∀ (i : Nat) (acc : List UInt64), acc.head? = prev →
      (∀ w, ¬ TokenWord (ws.reverse ++ acc).head? bad w) →
      readFields i acc (pre ++ bad :: post) = .error (Fault.at (i + pre.length) bad) := by
  induction hpre with
  | nil =>
    intro i acc _ hbad
    exact readFields_cons_of_not (by simpa using hbad) i post
  | cons hw _ ih =>
    intro i acc hprev hbad
    rw [List.cons_append, readFields_cons_of_tokenWord (hprev ▸ hw),
      ih (i + 1) _ rfl (by simpa using hbad), List.length_cons, Nat.add_assoc, Nat.add_comm 1]

/-! ## A line -/

theorem decode_eq (line : String) :
    decode line = if trim line = "" then .ok [] else readFields 0 [] (tokens line) := by
  simp only [decode, trim, String.ofList_eq_empty_iff, List.isEmpty_iff, tokens]

/-- A vector line is read exactly when it is blank, as the empty vector, or when its tokens stand
in order for words, as those words. -/
theorem decode_eq_ok_iff (line : String) (v : List UInt64) :
    decode line = .ok v ↔
      (trim line = "" ∧ v = []) ∨ (trim line ≠ "" ∧ Denotes none (tokens line) v) := by
  rw [decode_eq]
  by_cases hblank : trim line = ""
  · simp [hblank, eq_comm]
  · rw [if_neg hblank]
    constructor
    · intro h
      obtain ⟨ws, rfl, hws⟩ := denotes_of_readFields h
      exact .inr ⟨hblank, by simpa using hws⟩
    · rintro (⟨hb, -⟩ | ⟨-, hv⟩)
      · exact absurd hb hblank
      · simpa using readFields_of_denotes hv 0 [] rfl

/-- A vector line is refused exactly at the first token that stands for no word given the words
before it: a leading `@` as such, any other token with its index. -/
theorem decode_eq_error_iff (line : String) (f : Fault) :
    decode line = .error f ↔ trim line ≠ "" ∧ ∃ pre bad post ws,
      tokens line = pre ++ bad :: post ∧ Denotes none pre ws ∧
        (∀ w, ¬ TokenWord ws.getLast? bad w) ∧ f = Fault.at pre.length bad := by
  rw [decode_eq]
  by_cases hblank : trim line = ""
  · simp [hblank]
  · rw [if_neg hblank]
    constructor
    · intro h
      obtain ⟨pre, bad, post, ws, hsplit, hpre, hbad, hf⟩ := firstBad_of_readFields h
      refine ⟨hblank, pre, bad, post, ws, hsplit, hpre, ?_, by simpa using hf⟩
      simpa [List.head?_reverse] using hbad
    · rintro ⟨-, pre, bad, post, ws, hsplit, hpre, hbad, rfl⟩
      have hbad' : ∀ w, ¬ TokenWord (ws.reverse ++ []).head? bad w := by
        simpa [List.head?_reverse] using hbad
      rw [hsplit, readFields_of_firstBad hpre post 0 [] rfl hbad', Nat.zero_add]

/-- A wave file whose first line is a refused vector reports the refusal at line 1. -/
theorem parse_of_decode_error {line : String} {f : Fault} (hf : decode line = .error f)
    {text : String} {rest : List String} (hlines : Text.lines text = line :: rest) :
    WaveFile.parse text = .error ⟨1, .vector f⟩ := by
  simp [WaveFile.parse, hlines, hf]

/-- A vector line follows its grammar. It is read exactly when it is blank, as the empty vector,
or when its tokens stand in order for words, as those words. It is otherwise refused at the first
token that stands for no word given the words before it: a leading `@` as such, any other token
with its index. A wave file whose first line is refused reports the refusal at line 1. -/
theorem decode_grammar (line : String) :
    (∀ v, decode line = .ok v ↔
      (trim line = "" ∧ v = []) ∨ (trim line ≠ "" ∧ Denotes none (tokens line) v)) ∧
    (∀ f, decode line = .error f ↔ trim line ≠ "" ∧ ∃ pre bad post ws,
      tokens line = pre ++ bad :: post ∧ Denotes none pre ws ∧
        (∀ w, ¬ TokenWord ws.getLast? bad w) ∧ f = Fault.at pre.length bad) ∧
    ∀ f, decode line = .error f → ∀ text rest, Text.lines text = line :: rest →
      WaveFile.parse text = .error ⟨1, .vector f⟩ :=
  ⟨decode_eq_ok_iff line, decode_eq_error_iff line,
    fun _ hf _ _ hlines => parse_of_decode_error hf hlines⟩

example : decode " 2, @ ,+3 " = .ok [2, 2, 3] := by decide
example : decode "1,,@" = .error (.badToken "" 1) := by decide

end PinWave.VectorLine
