import PinWave.Proofs.Pin.Groups
/-!
# The line grammar of a pin table

A pin table is read line by line, each line trimmed, and what a line means depends on the lines
before it only through what they defined: the open group and the signals so far
(`PinTable.Defined`). A line takes the first of these forms that it matches
(`PinTable.LineStep`): blank or a comment; a `HARDWARE <path> BEGIN` line of a nonempty path,
which opens that group; `END`, which closes the open group; or a signal line of the open group,
whose comma-separated fields give a new name, a direction, a bit and a default
(`PinTable.SignalLine`). Whitespace-separated words decide the first three forms and commas the
last, so `HARDWARE_EN,I,1` is a signal while `HARDWARE ,I,0` is a faulty `HARDWARE` line.

Reading a table follows the grammar exactly (`PinTable.parse_first_bad_line`): it fails at the
first line that no form reads, given the lines before it, and succeeds when there is none, with
the signals the signal lines define.

## Main definitions
* `PinTable.SignalLine`: the fields of a signal line.
* `PinTable.LineStep`, `PinTable.Reads`: one line, and lines in order, read from what is defined.
* `PinTable.FirstBad`: the number of the first line no form reads.

## Main statements
* `PinTable.parse_first_bad_line`: reading fails exactly at the first bad line, and succeeds with
  the signals of the signal lines when there is none.
-/

namespace PinWave.PinTable

/-! ## Signal lines -/

/-- The fields of a signal line: the pieces between commas, each trimmed. -/
def fieldsOf (line : String) : List String :=
  (line.toList.splitOn ',').map fun f => String.ofList (Text.trimChars f)

/-- The default field: absent or empty for low, or a byte that is 0 or 1. -/
def DefaultField (given : Option String) (v : Bool) : Prop :=
  (given = none ∨ given = some "") ∧ v = false ∨
    ∃ t, given = some t ∧ Decimal.readWhole? t 255 = some v.toNat

/-- A trimmed line is a signal line of the group `hw` defining `s`: its fields are a nonempty
name, the letter of a direction, a bit below 64 that reads as a 32-bit unsigned number, and
optionally a default; fields after the fourth are ignored. -/
def SignalLine (line : String) (hw : HwPath) (s : Signal) : Prop :=
  s.name ≠ "" ∧ s.hardware = hw ∧ ∃ d b rest, fieldsOf line = s.name :: d :: b :: rest ∧
    d = s.direction.letter.toString ∧ Decimal.readWhole? b 4294967295 = some s.bit.val ∧
    DefaultField rest.head? s.default

theorem readDirection_eq_some_iff (d : String) (dir : Direction) :
    readDirection d = some dir ↔ d = dir.letter.toString := by
  unfold readDirection
  by_cases h₁ : d = "I"
  · cases dir <;> simp [h₁, Direction.letter]
  · by_cases h₂ : d = "O"
    · cases dir <;> simp [h₂, Direction.letter]
    · cases dir <;> simp [h₁, h₂, Direction.letter]

theorem readDefault_eq_ok_iff (given : Option String) (name : String) (v : Bool) :
    readDefault given name = .ok v ↔ DefaultField given v := by
  unfold readDefault DefaultField
  split
  · cases v <;> simp
  · have : Decimal.readWhole? "" 255 = none := by decide
    cases v <;> simp [this]
  · rename_i t hne
    have hne' : t ≠ "" := hne
    cases hr : Decimal.readWhole? t 255 with
    | none => cases v <;> simp [hne', hr]
    | some n => rcases n with _ | _ | n <;> cases v <;> simp [hne', hr]

/-- A signal line is read exactly when its fields are as `SignalLine` says. -/
theorem readSignal_eq_ok_iff (line : String) (hw : HwPath) (s : Signal) :
    readSignal line hw = .ok s ↔ SignalLine line hw s := by
  constructor
  · intro h
    unfold readSignal at h
    dsimp only at h
    split at h
    · rename_i name d b rest hf
      split at h
      · cases h
      · rename_i hname
        split at h
        · cases h
        · rename_i dir hdir
          split at h
          · cases h
          · rename_i n hn
            split at h
            · rename_i hlt
              cases hd : readDefault rest.head? name with
              | error e =>
                rw [hd] at h
                cases h
              | ok dflt =>
                rw [hd] at h
                cases h
                exact ⟨by simpa using hname, rfl, d, b, rest, hf,
                  (readDirection_eq_some_iff _ _).1 hdir, hn, (readDefault_eq_ok_iff _ _ _).1 hd⟩
            · cases h
    · cases h
  · rintro ⟨hname, rfl, d, b, rest, hf, hd, hb, hdef⟩
    have hf' : (line.toList.splitOn ',').map (fun f => String.ofList (Text.trimChars f)) =
        s.name :: d :: b :: rest := hf
    have hname' : s.name.isEmpty = false := by simpa using hname
    unfold readSignal
    simp only [hf', hname', (readDirection_eq_some_iff _ _).2 hd, hb, dif_pos s.bit.isLt,
      (readDefault_eq_ok_iff _ _ _).2 hdef]
    rfl

/-! ## Lines -/

/-- What the lines read so far have defined: the open group and the signals, in file order. -/
structure Defined where
  current : Option HwPath
  signals : List Signal

/-- What a reading has defined. -/
def Reading.defined (st : Reading) : Defined := ⟨st.current, st.signals⟩

/-- How one trimmed line moves what is defined. The forms are tried in this order: blank or a
comment; a `HARDWARE` line, which must be `HARDWARE <path> BEGIN` with a nonempty path and opens
that group; `END`, which closes the open group if there is one; and last a signal line of the
open group, defining a name no earlier line defined. -/
inductive LineStep : Defined → String → Defined → Prop where
  /-- A blank line or a comment defines nothing. -/
  | skip {d : Defined} {line : String} : isEntry line = false → LineStep d line d
  /-- `HARDWARE <path> BEGIN` of a nonempty path opens its group. -/
  | opening {d : Defined} {line p : String} : isEntry line = true →
      Text.words line = ["HARDWARE", p, "BEGIN"] → (HwPath.parse p).parts ≠ [] →
      LineStep d line ⟨some (HwPath.parse p), d.signals⟩
  /-- `END` closes the open group. -/
  | closing {d : Defined} {line : String} : line = "END" → LineStep d line ⟨none, d.signals⟩
  /-- A signal line of the open group defines a signal of a new name. -/
  | signal {d : Defined} {line : String} {hw : HwPath} {s : Signal} : isEntry line = true →
      (Text.words line).head? ≠ some "HARDWARE" → d.current = some hw → SignalLine line hw s →
      s.name ∉ d.signals.map (·.name) → LineStep d line ⟨d.current, d.signals ++ [s]⟩

/-- Lines in order, each trimmed, read from what is defined before them to what is after. -/
inductive Reads : Defined → List String → Defined → Prop where
  | nil {d : Defined} : Reads d [] d
  | cons {d d' d'' : Defined} {raw : String} {rest : List String} :
      LineStep d (Text.trim raw) d' → Reads d' rest d'' → Reads d (raw :: rest) d''

/-- Line `n`, counted from one, is the first line that no form reads, given the lines before it. -/
def FirstBad (lines : List String) (n : Nat) : Prop :=
  ∃ pre bad post d, lines = pre ++ bad :: post ∧ n = pre.length + 1 ∧ Reads ⟨none, []⟩ pre d ∧
    ∀ d', ¬ LineStep d (Text.trim bad) d'

/-! ## One line -/

/-- Reads one trimmed line, passing over blanks and comments. -/
def readEntry (st : Reading) (line : String) : Except Fault Reading :=
  if isEntry line then readLine st line else .ok st

theorem readLines_cons (st : Reading) (n : Nat) (raw : String) (rest : List (Nat × String)) :
    readLines st ((n, raw) :: rest) = match readEntry st (Text.trim raw) with
      | .ok st' => readLines st' rest
      | .error f => .error ⟨n, f⟩ := by
  rw [readLines.eq_2]
  unfold readEntry isEntry
  -- with the line's reading fixed, both sides take the same branch
  cases readLine st (Text.trim raw) <;>
    by_cases h : ((Text.trim raw).isEmpty || (Text.trim raw).startsWith "//") = true <;> simp [h]

/-- A line that is read takes a step of the grammar. -/
theorem lineStep_of_readEntry {st st' : Reading} {line : String} (h : readEntry st line = .ok st') :
    LineStep st.defined line st'.defined := by
  unfold readEntry at h
  split at h
  · rename_i hentry
    unfold readLine at h
    dsimp only at h
    split at h
    · rename_i hh
      split at h
      · rename_i x p hw
        split at h
        · cases h
        · rename_i hne
          cases h
          obtain rfl : x = "HARDWARE" := by simpa [hw] using hh
          exact .opening hentry hw (by simpa [HwPath.isEmpty] using hne)
      · cases h
    · rename_i hh
      split at h
      · rename_i hend
        cases h
        exact .closing hend
      · split at h
        · cases h
        · rename_i hw hcur
          simp only [bind, Except.bind] at h
          split at h
          · cases h
          · rename_i sig hsig
            split at h
            · cases h
            · rename_i hdup
              cases h
              exact .signal hentry hh hcur ((readSignal_eq_ok_iff _ _ _).1 hsig)
                (by simpa [Reading.defined] using hdup)
  · rename_i hskip
    cases h
    exact .skip (by simpa using hskip)

/-- A step of the grammar is what reading the line does. -/
theorem readEntry_of_lineStep {st : Reading} {line : String} {d : Defined}
    (h : LineStep st.defined line d) : ∃ st', readEntry st line = .ok st' ∧ st'.defined = d := by
  cases h with
  | skip hskip => exact ⟨st, by simp [readEntry, hskip], rfl⟩
  | @opening p hentry hw hne =>
    let st' : Reading :=
      { st with groups := openGroup st.groups (HwPath.parse p), current := some (HwPath.parse p) }
    refine ⟨st', ?_, rfl⟩
    simp [readEntry, hentry, readLine, hw, HwPath.isEmpty, hne, st']
  | closing hend =>
    subst hend
    have hwords : Text.words "END" = ["END"] := by decide
    have hentry : isEntry "END" = true := by simp [isEntry]
    exact ⟨{ st with current := none }, by simp [readEntry, hentry, readLine, hwords], rfl⟩
  | @signal hw s hentry hh hcur hsig hnew =>
    -- `END` has one field, so it is no signal line
    have hend : line ≠ "END" := by
      rintro rfl
      obtain ⟨-, -, d, b, rest, hf, -⟩ := hsig
      have hone : fieldsOf "END" = ["END"] := by decide
      simp [hone] at hf
    let st' : Reading :=
      { st with signals := st.signals ++ [s], groups := addMember st.groups hw s.name }
    have hcur' : st.current = some hw := hcur
    have hnew' : ¬ ∃ x ∈ st.signals, x.name = s.name := by simpa [Reading.defined] using hnew
    refine ⟨st', ?_, rfl⟩
    simp [readEntry, hentry, readLine, hh, hend, hcur', (readSignal_eq_ok_iff _ _ _).2 hsig, hnew',
      bind, Except.bind, pure, Except.pure, st']

/-! ## Lines in order -/

section Run

/-- Lines numbered from `k + 1`, as reading a text numbers them from one. -/
def numbered (k : Nat) (ls : List String) : List (Nat × String) :=
  (ls.zipIdx k).map fun (l, i) => (i + 1, l)

theorem numbered_cons (k : Nat) (raw : String) (rest : List String) :
    numbered k (raw :: rest) = (k + 1, raw) :: numbered (k + 1) rest := rfl

/-- Lines that are read all take steps of the grammar. -/
theorem reads_of_readLines {st st' : Reading} {ls : List String} {k : Nat}
    (h : readLines st (numbered k ls) = .ok st') : Reads st.defined ls st'.defined := by
  induction ls generalizing st k with
  | nil =>
    cases h
    exact .nil
  | cons raw rest ih =>
    rw [numbered_cons, readLines_cons] at h
    split at h
    · rename_i st'' hst
      exact .cons (lineStep_of_readEntry hst) (ih h)
    · cases h

/-- Lines that the grammar reads are all read. -/
theorem readLines_of_reads {st : Reading} {ls : List String} {k : Nat} {d : Defined}
    (h : Reads st.defined ls d) : ∃ st', readLines st (numbered k ls) = .ok st' ∧ st'.defined = d := by
  induction ls generalizing st k with
  | nil =>
    cases h
    exact ⟨st, rfl, rfl⟩
  | cons raw rest ih =>
    cases h with
    | cons hstep hrest =>
      obtain ⟨st', hst', rfl⟩ := readEntry_of_lineStep hstep
      obtain ⟨st'', h'', hd''⟩ := ih hrest
      refine ⟨st'', ?_, hd''⟩
      rw [numbered_cons, readLines_cons, hst']
      exact h''

/-- A failure names a line that no form reads, the lines before it all read. -/
theorem firstBad_of_readLines {st : Reading} {ls : List String} {k n : Nat} {f : Fault}
    (h : readLines st (numbered k ls) = .error ⟨n, f⟩) :
    ∃ pre bad post d, ls = pre ++ bad :: post ∧ n = k + pre.length + 1 ∧
      Reads st.defined pre d ∧ ∀ d', ¬ LineStep d (Text.trim bad) d' := by
  induction ls generalizing st k with
  | nil => cases h
  | cons raw rest ih =>
    rw [numbered_cons, readLines_cons] at h
    split at h
    · rename_i st'' hst
      obtain ⟨pre, bad, post, d, rfl, rfl, hpre, hbad⟩ := ih h
      refine ⟨raw :: pre, bad, post, d, rfl, ?_, .cons (lineStep_of_readEntry hst) hpre, hbad⟩
      simp only [List.length_cons]
      omega
    · -- this line fails, so no step of the grammar reads it
      rename_i f' hf
      cases h
      refine ⟨[], raw, rest, st.defined, rfl, rfl, .nil, fun d' hd' => ?_⟩
      obtain ⟨st', hst', -⟩ := readEntry_of_lineStep hd'
      rw [hst'] at hf
      cases hf

/-- Reading fails at the first line that no form reads. -/
theorem readLines_of_firstBad {st : Reading} {pre : List String} {bad : String}
    {post : List String} {k : Nat} {d : Defined} (hpre : Reads st.defined pre d)
    (hbad : ∀ d', ¬ LineStep d (Text.trim bad) d') :
    ∃ f, readLines st (numbered k (pre ++ bad :: post)) = .error ⟨k + pre.length + 1, f⟩ := by
  induction pre generalizing st k with
  | nil =>
    cases hpre
    rw [List.nil_append, numbered_cons, readLines_cons]
    cases hr : readEntry st (Text.trim bad) with
    | ok st' => exact absurd (lineStep_of_readEntry hr) (hbad _)
    | error f => exact ⟨f, rfl⟩
  | cons raw rest ih =>
    cases hpre with
    | cons hstep hrest =>
      obtain ⟨st', hst', rfl⟩ := readEntry_of_lineStep hstep
      obtain ⟨f, hf⟩ := @ih st' (k + 1) hrest
      refine ⟨f, ?_⟩
      rw [List.cons_append, numbered_cons, readLines_cons, hst']
      dsimp only
      rw [hf, List.length_cons, show k + 1 + rest.length + 1 = k + (rest.length + 1) + 1 by omega]

end Run

/-! ## Reading a table -/

theorem parse_eq_error_iff (text : String) (e : ParseError) :
    parse text = .error e ↔ readLines ⟨[], [], none⟩ (numbered 0 (Text.lines text)) = .error e := by
  unfold parse numbered
  simp only [bind, Except.bind]
  split <;> simp_all [pure, Except.pure]

theorem readLines_of_parse {text : String} {t : PinTable} (h : parse text = .ok t) :
    ∃ st, readLines ⟨[], [], none⟩ (numbered 0 (Text.lines text)) = .ok st ∧ t.signals = st.signals := by
  unfold parse at h
  simp only [bind, Except.bind] at h
  split at h
  · cases h
  · rename_i st hst
    cases h
    exact ⟨st, hst, rfl⟩

/-- Reading a pin table follows its line grammar: it fails at line `n` exactly when `n` is the
first line that no form reads given the lines before it, it succeeds exactly when there is no such
line, and then its signals are those the signal lines define, in order. -/
theorem parse_first_bad_line (text : String) :
    (∀ n, (∃ f, parse text = .error ⟨n, f⟩) ↔ FirstBad (Text.lines text) n) ∧
    ((∃ t, parse text = .ok t) ↔ ∀ n, ¬ FirstBad (Text.lines text) n) ∧
    ∀ t, parse text = .ok t → ∃ d, Reads ⟨none, []⟩ (Text.lines text) d ∧ t.signals = d.signals := by
  have herror : ∀ n, (∃ f, parse text = .error ⟨n, f⟩) ↔ FirstBad (Text.lines text) n := by
    intro n
    constructor
    · rintro ⟨f, hf⟩
      obtain ⟨pre, bad, post, d, hls, hn, hpre, hbad⟩ :=
        firstBad_of_readLines ((parse_eq_error_iff text _).1 hf)
      exact ⟨pre, bad, post, d, hls, by omega, hpre, hbad⟩
    · rintro ⟨pre, bad, post, d, hls, rfl, hpre, hbad⟩
      obtain ⟨f, hf⟩ := @readLines_of_firstBad ⟨[], [], none⟩ pre bad post 0 d hpre hbad
      rw [← hls, Nat.zero_add] at hf
      exact ⟨f, (parse_eq_error_iff text _).2 hf⟩
  refine ⟨herror, ⟨fun ⟨t, ht⟩ n hn => ?_, fun hnone => ?_⟩, fun t ht => ?_⟩
  · obtain ⟨f, hf⟩ := (herror n).2 hn
    rw [ht] at hf
    cases hf
  · cases hp : parse text with
    | ok t => exact ⟨t, rfl⟩
    | error e => exact absurd ((herror e.line).1 ⟨e.fault, hp⟩) (hnone e.line)
  · obtain ⟨st, hst, hsig⟩ := readLines_of_parse ht
    exact ⟨st.defined, reads_of_readLines hst, hsig⟩

end PinWave.PinTable
