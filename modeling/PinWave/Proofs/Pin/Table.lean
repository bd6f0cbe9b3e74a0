import PinWave.Pin.Table
/-!
# The shape of a read pin table

Reading a pin table keeps four facts about what it has read (`PinTable.Reading.Shaped`): signal
names are distinct, every signal is a member of the group of its hardware, no hardware has two
groups, and the open group is one of the groups. A line can only open a group, close one or add a
signal of a new name (`PinTable.readLine_cases`); each of these keeps the four facts
(`PinTable.readLine_shaped`), so every table read has them (`PinTable.parse_wellFormed`). The multiplexed pins are then
complete: two signals on one bit of one hardware group are members of one multiplexed pin
(`PinTable.WellFormed.exists_muxGroup`), since the grouping by bit collects every member of a bit
into one entry (`PinTable.byBit_collects`).

## Main definitions
* `PinTable.WellFormed`: the shape of every table read from text.

## Main statements
* `PinTable.parse_wellFormed`: every table read from text is well formed.
* `PinTable.WellFormed.exists_muxGroup`: signals sharing a bit share a multiplexed pin.
-/

namespace PinWave.PinTable

/-! ## Grouping the members of a group by bit -/

/-- The bit of a named signal. -/
def bitOf (signals : List Signal) (n : String) : Option (Fin 64) := (findIn signals n).map (·.bit)

/-- After any prefix of the names, each bit that one of them has owns an entry holding all the
names with that bit. -/
def Collects (signals : List Signal) (names : List String) (acc : List (Fin 64 × List String)) :
    Prop :=
  ∀ b, (∃ n ∈ names, bitOf signals n = some b) →
    ∃ e ∈ acc, e.1 = b ∧ ∀ n ∈ names, bitOf signals n = some b → n ∈ e.2

/-- One name keeps the entries collecting: it joins every entry of its bit, or opens one. -/
theorem collects_step {signals : List Signal} {names : List String}
    {acc : List (Fin 64 × List String)} (h : Collects signals names acc) (n : String) :
    Collects signals (names ++ [n])
      (match findIn signals n with
        | none => acc
        | some s =>
          if acc.any (·.1 == s.bit) then acc.map fun e => if e.1 == s.bit then (e.1, e.2 ++ [n]) else e
          else acc ++ [(s.bit, [n])]) := by
  intro b hb
  simp only [List.mem_append, List.mem_singleton] at hb ⊢
  cases hs : findIn signals n with
  | none =>
    have hn : bitOf signals n = none := by simp [bitOf, hs]
    obtain ⟨e, he, heb, hall⟩ := h b (by
      obtain ⟨n', hn' | rfl, hb'⟩ := hb
      · exact ⟨n', hn', hb'⟩
      · rw [hn] at hb'
        cases hb')
    refine ⟨e, he, heb, fun n' hn' hb' => ?_⟩
    rcases hn' with hn' | rfl
    · exact hall n' hn' hb'
    · rw [hn] at hb'
      cases hb'
  | some s =>
    have hn : bitOf signals n = some s.bit := by simp [bitOf, hs]
    dsimp only
    by_cases hbit : s.bit = b
    · subst hbit
      split
      · -- the bit has an entry: every entry of the bit takes the name
        rename_i hany
        by_cases hold : ∃ n' ∈ names, bitOf signals n' = some s.bit
        · obtain ⟨e, he, heb, hall⟩ := h s.bit hold
          refine ⟨(e.1, e.2 ++ [n]), List.mem_map.2 ⟨e, he, by simp [heb]⟩, heb, ?_⟩
          rintro n' (hn' | rfl) hb'
          · exact List.mem_append_left _ (hall n' hn' hb')
          · simp
        · obtain ⟨e, he, heb⟩ := List.any_eq_true.1 hany
          refine ⟨(e.1, e.2 ++ [n]), List.mem_map.2 ⟨e, he, by simp [heb]⟩, by simpa using heb, ?_⟩
          rintro n' (hn' | rfl) hb'
          · exact absurd ⟨n', hn', hb'⟩ hold
          · simp
      · -- no entry yet, so no earlier name has the bit
        rename_i hany
        refine ⟨(s.bit, [n]), List.mem_append_right _ (List.mem_singleton_self _), rfl, ?_⟩
        rintro n' (hn' | rfl) hb'
        · obtain ⟨e, he, heb, -⟩ := h s.bit ⟨n', hn', hb'⟩
          exact absurd (List.any_eq_true.2 ⟨e, he, by simp [heb]⟩) hany
        · simp
    · -- another bit: its entry is kept as it was
      have hold : ∃ n' ∈ names, bitOf signals n' = some b := by
        obtain ⟨n', hn' | rfl, hb'⟩ := hb
        · exact ⟨n', hn', hb'⟩
        · rw [hn] at hb'
          exact absurd (Option.some.inj hb') hbit
      obtain ⟨e, he, heb, hall⟩ := h b hold
      have hfresh : ∀ n' ∈ names ++ [n], bitOf signals n' = some b → n' ∈ e.2 := by
        intro n' hn' hb'
        rcases List.mem_append.1 hn' with hn' | hn'
        · exact hall n' hn' hb'
        · rw [List.mem_singleton.1 hn', hn] at hb'
          exact absurd (Option.some.inj hb') hbit
      split
      · refine ⟨e, List.mem_map.2 ⟨e, he, by simp [heb, Ne.symm hbit]⟩, heb, ?_⟩
        intro n' hn' hb'
        exact hfresh n' (by simpa using hn') hb'
      · refine ⟨e, List.mem_append_left _ he, heb, ?_⟩
        intro n' hn' hb'
        exact hfresh n' (by simpa using hn') hb'

/-- The grouping by bit gives every bit of the names one entry holding all its names. -/
theorem byBit_collects (signals : List Signal) (names : List String) :
    Collects signals names (byBit signals names) := by
  unfold byBit
  rw [← List.reverse_reverse names]
  induction names.reverse with
  | nil =>
    intro b hb
    simp at hb
  | cons n ns ih =>
    rw [List.reverse_cons, List.foldl_append, List.foldl_cons, List.foldl_nil]
    exact collects_step ih n

/-- Two names of a group on one bit are members of one multiplexed pin. -/
theorem exists_mem_findMuxGroups {signals : List Signal} {groups : List (HwPath × List String)}
    {hw : HwPath} {names : List String} (hg : (hw, names) ∈ groups) {n₁ n₂ : String}
    (h₁ : n₁ ∈ names) (h₂ : n₂ ∈ names) (hne : n₁ ≠ n₂) {b : Fin 64}
    (hb₁ : bitOf signals n₁ = some b) (hb₂ : bitOf signals n₂ = some b) :
    ∃ m ∈ findMuxGroups signals groups, n₁ ∈ m.signals ∧ n₂ ∈ m.signals := by
  obtain ⟨e, he, heb, hall⟩ := byBit_collects signals names b ⟨n₁, h₁, hb₁⟩
  have hm₁ := hall n₁ h₁ hb₁
  have hm₂ := hall n₂ h₂ hb₂
  -- two distinct members make the entry a multiplexed pin
  have hlen : 1 < e.2.length := by
    obtain ⟨l₁, l₂, hl⟩ := List.append_of_mem hm₁
    rw [hl] at hm₂
    rcases List.mem_append.1 hm₂ with h | h
    · rw [hl]
      cases l₁ with
      | nil => simp at h
      | cons x xs =>
        simp only [List.length_append, List.length_cons]
        omega
    · rw [hl]
      rcases List.mem_cons.1 h with h | h
      · exact absurd h.symm hne
      · cases l₂ with
        | nil => simp at h
        | cons x xs =>
          simp only [List.length_append, List.length_cons]
          omega
  refine ⟨⟨hw, e.1, e.2⟩, ?_, hm₁, hm₂⟩
  unfold findMuxGroups
  refine List.mem_flatMap.2 ⟨(hw, names), hg, List.mem_filterMap.2 ⟨e, he, ?_⟩⟩
  simp [hlen]

/-! ## Reading keeps the shape -/

/-- What reading keeps: distinct names, every signal a member of the group of its hardware, one
group per hardware, and an open group that is one of the groups. -/
structure Reading.Shaped (st : Reading) : Prop where
  nodup : (st.signals.map (·.name)).Nodup
  member : ∀ s ∈ st.signals, ∃ names, (s.hardware, names) ∈ st.groups ∧ s.name ∈ names
  keys : (st.groups.map (·.1)).Nodup
  current : ∀ hw, st.current = some hw → ∃ names, (hw, names) ∈ st.groups

/-- Reading starts from nothing read, which has the shape. -/
theorem Reading.shaped_empty : Reading.Shaped ⟨[], [], none⟩ :=
  ⟨List.nodup_nil, by simp, List.nodup_nil, fun _ h => by cases h⟩

theorem mem_openGroup {groups : List (HwPath × List String)} {hw : HwPath}
    {g : HwPath × List String} (hg : g ∈ groups) : g ∈ openGroup groups hw := by
  unfold openGroup
  split
  · exact hg
  · exact List.mem_append_left _ hg

theorem exists_mem_openGroup (groups : List (HwPath × List String)) (hw : HwPath) :
    ∃ names, (hw, names) ∈ openGroup groups hw := by
  unfold openGroup
  split
  · rename_i h
    obtain ⟨g, hg, hk⟩ := List.any_eq_true.1 h
    exact ⟨g.2, by rw [show hw = g.1 from (beq_iff_eq.1 hk).symm]; exact hg⟩
  · exact ⟨[], List.mem_append_right _ (List.mem_singleton_self _)⟩

theorem keys_openGroup {groups : List (HwPath × List String)} (h : (groups.map (·.1)).Nodup)
    (hw : HwPath) : ((openGroup groups hw).map (·.1)).Nodup := by
  unfold openGroup
  split
  · exact h
  · rename_i hnot
    rw [List.map_append, List.nodup_append]
    refine ⟨h, by simp, ?_⟩
    simp only [List.map_cons, List.map_nil, List.mem_singleton, List.mem_map]
    rintro _ ⟨g, hg, rfl⟩ _ rfl heq
    exact hnot (List.any_eq_true.2 ⟨g, hg, by simp [heq]⟩)

theorem map_fst_addMember (groups : List (HwPath × List String)) (hw : HwPath) (name : String) :
    (addMember groups hw name).map (·.1) = groups.map (·.1) := by
  unfold addMember
  rw [List.map_map]
  congr 1
  funext g
  simp only [Function.comp]
  split <;> rfl

/-- A member of a group stays a member when a name is added, and the added name is a member of
its group. -/
theorem mem_addMember {groups : List (HwPath × List String)} {hw hw' : HwPath} {names : List String}
    (hg : (hw', names) ∈ groups) (name n : String) (hn : n ∈ names ∨ (hw' = hw ∧ n = name)) :
    ∃ names', (hw', names') ∈ addMember groups hw name ∧ n ∈ names' := by
  unfold addMember
  by_cases hk : hw' = hw
  · subst hk
    refine ⟨names ++ [name], List.mem_map.2 ⟨(hw', names), hg, by simp⟩, ?_⟩
    rcases hn with hn | ⟨-, rfl⟩
    · exact List.mem_append_left _ hn
    · simp
  · refine ⟨names, List.mem_map.2 ⟨(hw', names), hg, by simp [hk]⟩, ?_⟩
    rcases hn with hn | ⟨h, -⟩
    · exact hn
    · exact absurd h hk

theorem exists_mem_addMember {groups : List (HwPath × List String)} {hw hw' : HwPath}
    {names : List String} (hg : (hw', names) ∈ groups) (name : String) :
    ∃ names', (hw', names') ∈ addMember groups hw name := by
  unfold addMember
  by_cases hk : hw' = hw
  · exact ⟨names ++ [name], List.mem_map.2 ⟨(hw', names), hg, by simp [hk]⟩⟩
  · exact ⟨names, List.mem_map.2 ⟨(hw', names), hg, by simp [hk]⟩⟩

theorem hardware_of_readSignal {line : String} {hw : HwPath} {sig : Signal}
    (h : readSignal line hw = .ok sig) : sig.hardware = hw := by
  unfold readSignal at h
  dsimp only at h
  split at h
  · split at h
    · cases h
    · split at h
      · cases h
      · split at h
        · cases h
        · split at h
          · cases hd : readDefault _ _ with
            | error e =>
              rw [hd] at h
              cases h
            | ok d =>
              rw [hd] at h
              cases h
              rfl
          · cases h
  · cases h

/-- The hardware a trimmed line `HARDWARE <path> BEGIN` opens. -/
def opening? (line : String) : Option HwPath :=
  match Text.words line with
  | ["HARDWARE", p, "BEGIN"] => some (HwPath.parse p)
  | _ => none

theorem opening?_eq_none {line : String} (h : (Text.words line).head? ≠ some "HARDWARE") :
    opening? line = none := by
  unfold opening?
  split
  · rename_i p hp
    simp [hp] at h
  · rfl

/-- What one line can do: open a group of the hardware it names, close the open group, or add a
signal of a new name to the open group. -/
theorem readLine_cases {st st' : Reading} {line : String} (h : readLine st line = .ok st') :
    (∃ hw, opening? line = some hw ∧ hw.isEmpty = false ∧
      st' = { st with groups := openGroup st.groups hw, current := some hw }) ∨
    (opening? line = none ∧ st' = { st with current := none }) ∨
    (opening? line = none ∧ ∃ hw sig, st.current = some hw ∧ readSignal line hw = .ok sig ∧
      st.signals.any (·.name == sig.name) = false ∧
      st' = { st with signals := st.signals ++ [sig], groups := addMember st.groups hw sig.name }) := by
  unfold readLine at h
  dsimp only at h
  split at h
  · rename_i hh
    split at h
    · rename_i x p heq
      split at h
      · cases h
      · rename_i hne
        cases h
        obtain rfl : x = "HARDWARE" := by simpa [heq] using hh
        refine .inl ⟨_, ?_, by simpa using hne, rfl⟩
        simp [opening?, heq]
    · cases h
  · -- no opening line: `END` or a signal
    rename_i hh
    have hnone := opening?_eq_none hh
    split at h
    · cases h
      exact .inr (.inl ⟨hnone, rfl⟩)
    · split at h
      · cases h
      · rename_i hw hcur
        simp only [bind, Except.bind] at h
        split at h
        · cases h
        · rename_i sig hsig
          split at h
          · cases h
          · rename_i hdup
            cases h
            exact .inr (.inr ⟨hnone, hw, sig, hcur, hsig, by simpa using hdup, rfl⟩)

/-- One line keeps the shape. -/
theorem readLine_shaped {st st' : Reading} {line : String} (hst : st.Shaped)
    (h : readLine st line = .ok st') : st'.Shaped := by
  rcases readLine_cases h with ⟨hw, -, -, rfl⟩ | ⟨-, rfl⟩ | ⟨-, hw, sig, hcur, hsig, hdup, rfl⟩
  · -- an opening line
    refine ⟨hst.nodup, fun s hs => ?_, keys_openGroup hst.keys _, fun hw' hcur => ?_⟩
    · obtain ⟨names, hg, hn⟩ := hst.member s hs
      exact ⟨names, mem_openGroup hg, hn⟩
    · cases hcur
      exact exists_mem_openGroup _ _
  · exact ⟨hst.nodup, hst.member, hst.keys, fun _ h => by cases h⟩
  · -- a signal line
    have hhw := hardware_of_readSignal hsig
    obtain ⟨names₀, hg₀⟩ := hst.current hw hcur
    refine ⟨?_, fun s hs => ?_, ?_, fun hw' hcur' => ?_⟩
    · -- the new name is not among the old ones
      rw [List.map_append, List.nodup_append]
      refine ⟨hst.nodup, by simp, ?_⟩
      simp only [List.map_cons, List.map_nil, List.mem_singleton, List.mem_map]
      rintro _ ⟨s, hs, rfl⟩ _ rfl heq
      have hne := List.any_eq_false.1 hdup s hs
      simp [heq] at hne
    · rcases List.mem_append.1 hs with hs | hs
      · obtain ⟨names, hg, hn⟩ := hst.member s hs
        exact mem_addMember hg _ _ (.inl hn)
      · rw [List.mem_singleton.1 hs, hhw]
        exact mem_addMember hg₀ _ _ (.inr ⟨rfl, rfl⟩)
    · rw [map_fst_addMember]
      exact hst.keys
    · obtain ⟨names, hg⟩ := hst.current hw' hcur'
      exact exists_mem_addMember hg _

/-- Every run of lines keeps the shape. -/
theorem readLines_shaped {st st' : Reading} {ls : List (Nat × String)} (hst : st.Shaped)
    (h : readLines st ls = .ok st') : st'.Shaped := by
  induction ls generalizing st with
  | nil =>
    cases h
    exact hst
  | cons p ls ih =>
    obtain ⟨n, raw⟩ := p
    unfold readLines at h
    dsimp only at h
    split at h
    · exact ih hst h
    · split at h
      · rename_i st'' hl
        exact ih (readLine_shaped hst hl) h
      · cases h

/-- The shape of every table read from text: distinct names, every signal a member of the group
of its hardware, one group per hardware, and the multiplexed pins found from the groups. -/
structure WellFormed (t : PinTable) : Prop where
  nodup : (t.signals.map (·.name)).Nodup
  member : ∀ s ∈ t.signals, ∃ names, (s.hardware, names) ∈ t.groups ∧ s.name ∈ names
  keys : (t.groups.map (·.1)).Nodup
  muxGroups : t.muxGroups = findMuxGroups t.signals t.groups

/-- Every table read from text is well formed. -/
theorem parse_wellFormed {text : String} {t : PinTable} (h : parse text = .ok t) : t.WellFormed := by
  unfold parse at h
  simp only [bind, Except.bind] at h
  split at h
  · cases h
  · rename_i st hst
    cases h
    have hs := readLines_shaped Reading.shaped_empty hst
    exact ⟨hs.nodup, hs.member, hs.keys, rfl⟩

/-! ## Signals sharing a bit -/

theorem findIn_of_mem {signals : List Signal} (hnd : (signals.map (·.name)).Nodup) {s : Signal}
    (hs : s ∈ signals) : findIn signals s.name = some s := by
  unfold findIn
  induction signals with
  | nil => simp at hs
  | cons x xs ih =>
    rw [List.map_cons, List.nodup_cons] at hnd
    rcases List.mem_cons.1 hs with rfl | hs
    · simp
    · have hne : x.name ≠ s.name := fun h => hnd.1 (h ▸ List.mem_map_of_mem hs)
      rw [List.find?_cons_of_neg (by simpa using hne)]
      exact ih hnd.2 hs

/-- With one group per hardware, a hardware has one member list. -/
theorem eq_of_mem_of_nodup_keys {groups : List (HwPath × List String)}
    (h : (groups.map (·.1)).Nodup) {hw : HwPath} {a b : List String} (ha : (hw, a) ∈ groups)
    (hb : (hw, b) ∈ groups) : a = b := by
  induction groups with
  | nil => simp at ha
  | cons g gs ih =>
    rw [List.map_cons, List.nodup_cons] at h
    rcases List.mem_cons.1 ha with rfl | ha <;> rcases List.mem_cons.1 hb with hb' | hb
    · exact (Prod.mk.inj hb').2.symm
    · exact absurd (List.mem_map_of_mem (f := (·.1)) hb) h.1
    · rw [← hb'] at h
      exact absurd (List.mem_map_of_mem (f := (·.1)) ha) h.1
    · exact ih h.2 ha hb

/-- Two signals of a well-formed table on one bit of one hardware group are members of one
multiplexed pin. -/
theorem WellFormed.exists_muxGroup {t : PinTable} (ht : t.WellFormed) {s₁ s₂ : Signal}
    (h₁ : s₁ ∈ t.signals) (h₂ : s₂ ∈ t.signals) (hne : s₁.name ≠ s₂.name)
    (hhw : s₁.hardware = s₂.hardware) (hbit : s₁.bit = s₂.bit) :
    ∃ m ∈ t.muxGroups, s₁.name ∈ m.signals ∧ s₂.name ∈ m.signals := by
  obtain ⟨names₁, hg₁, hn₁⟩ := ht.member s₁ h₁
  obtain ⟨names₂, hg₂, hn₂⟩ := ht.member s₂ h₂
  -- one group per hardware, so both are members of the same group
  have hsame : names₁ = names₂ := by
    rw [hhw] at hg₁
    exact eq_of_mem_of_nodup_keys ht.keys hg₁ hg₂
  subst hsame
  rw [ht.muxGroups]
  refine exists_mem_findMuxGroups hg₁ hn₁ hn₂ hne (b := s₁.bit) ?_ ?_
  · simp [bitOf, findIn_of_mem ht.nodup h₁]
  · simp [bitOf, findIn_of_mem ht.nodup h₂, hbit]

end PinWave.PinTable
