import PinWave.Proofs.Pin.Table
import PinWave.Proofs.Wave.File
import Mathlib.Data.List.Induction
import Mathlib.Data.List.Nodup
/-!
# The groups and multiplexed pins of a read pin table

A pin table read from text has the groups its `HARDWARE <path> BEGIN` lines open, each once and
in order of first opening (`PinTable.openings`, `List.eraseDups`), and each group lists the
signals of its hardware in file order, a reopened group taking its later signals at the end.
Reading keeps this with the hardware opened so far (`PinTable.Grouped`, one step per line in
`PinTable.readLine_grouped`). From it the queries of a table read as their plain meaning: the
signals of a group are those of its hardware (`PinTable.groupSignals_eq_filter`), the groups
together list every signal once, the multiplexed pins are the reference ones
(`PinTable.muxReference`), no name is a member of two of them, and a group is one bit wider than
its highest bit.

## Main definitions
* `PinTable.openings`: the hardware the entries of a text open, in line order.
* `PinTable.muxReference`: the multiplexed pins of a table, said directly.
* `PinTable.Invariant`: what every table read from text satisfies.

## Main statements
* `PinTable.parse_invariant`: every table read from text satisfies the invariant.
-/

namespace PinWave.PinTable

/-! ## Lists without repeats -/

theorem eraseDups_append_singleton {α : Type} [BEq α] [LawfulBEq α] (l : List α) (a : α) :
    (l ++ [a]).eraseDups = if a ∈ l then l.eraseDups else l.eraseDups ++ [a] := by
  rw [List.eraseDups_append]
  by_cases h : a ∈ l
  · simp [h, List.removeAll]
  · simp [h, List.removeAll, List.eraseDups_cons]

theorem nodup_eraseDups {α : Type} [BEq α] [LawfulBEq α] (l : List α) : l.eraseDups.Nodup := by
  induction l using List.reverseRecOn with
  | nil => simp
  | append_singleton l a ih =>
    rw [eraseDups_append_singleton]
    split
    · exact ih
    · rename_i h
      refine ih.append (List.nodup_singleton a) ?_
      simpa [List.mem_eraseDups] using h

theorem perm_flatMap_filter {α β : Type} [DecidableEq β] {keys : List β} (hk : keys.Nodup)
    {l : List α} {f : α → β} (hl : ∀ a ∈ l, f a ∈ keys) :
    (keys.flatMap fun k => l.filter (f · == k)).Perm l := by
  induction keys generalizing l with
  | nil =>
    cases l with
    | nil => simp
    | cons a l => exact absurd (hl a List.mem_cons_self) (by simp)
  | cons k ks ih =>
    rw [List.nodup_cons] at hk
    rw [List.flatMap_cons]
    have hrest : (ks.flatMap fun k' => l.filter (f · == k')) =
        ks.flatMap fun k' => (l.filter fun a => !(f a == k)).filter (f · == k') := by
      refine List.flatMap_congr fun k' hk' => ?_
      rw [List.filter_filter]
      refine List.filter_congr fun a _ => ?_
      by_cases h : f a = k'
      · subst h
        simp [show f a ≠ k from fun h => hk.1 (h ▸ hk')]
      · simp [h]
    rw [hrest]
    refine List.Perm.trans (List.Perm.append_left _ (ih hk.2 fun a ha => ?_)) (List.filter_append_perm _ _)
    simp only [List.mem_filter, Bool.not_eq_eq_eq_not, Bool.not_true, beq_eq_false_iff_ne] at ha
    rcases List.mem_cons.1 (hl a ha.1) with h | h
    · exact absurd h ha.2
    · exact h

/-! ## The hardware a text opens -/

/-- Whether a trimmed line is an entry of a table: neither blank nor a comment. -/
def isEntry (line : String) : Bool := !(line.isEmpty || line.startsWith "//")

/-- The hardware that the entries among some lines open, in line order, repeats included. -/
def openings (lines : List String) : List HwPath :=
  lines.filterMap fun raw => if isEntry (Text.trim raw) then opening? (Text.trim raw) else none

theorem openings_cons (raw : String) (rest : List String) :
    openings (raw :: rest) =
      (if isEntry (Text.trim raw) then (opening? (Text.trim raw)).toList else []) ++
        openings rest := by
  unfold openings
  rw [List.filterMap_cons]
  by_cases he : isEntry (Text.trim raw) = true
  · cases opening? (Text.trim raw) <;> simp [he]
  · simp [he]

/-- Opening a group adds its hardware, with no members, unless it is a group already. -/
theorem openGroup_eq (groups : List (HwPath × List String)) (hw : HwPath) :
    openGroup groups hw = if hw ∈ groups.map (·.1) then groups else groups ++ [(hw, [])] := by
  by_cases h : hw ∈ groups.map (·.1)
  · have hany : groups.any (·.1 == hw) = true := by simpa using h
    simp [openGroup, hany, h]
  · have hany : groups.any (·.1 == hw) = false :=
      List.any_eq_false.2 fun g hg hk => h (List.mem_map.2 ⟨g, hg, beq_iff_eq.1 hk⟩)
    simp [openGroup, hany, h]

theorem map_fst_openGroup (groups : List (HwPath × List String)) (hw : HwPath) :
    (openGroup groups hw).map (·.1) =
      if hw ∈ groups.map (·.1) then groups.map (·.1) else groups.map (·.1) ++ [hw] := by
  rw [openGroup_eq]
  split <;> simp

theorem mem_openGroup_iff {groups : List (HwPath × List String)} {hw : HwPath}
    {g : HwPath × List String} :
    g ∈ openGroup groups hw ↔ g ∈ groups ∨ (hw ∉ groups.map (·.1) ∧ g = (hw, [])) := by
  rw [openGroup_eq]
  split <;> simp [*]

/-- What reading keeps about the groups, given the hardware the lines read so far have opened:
the groups are those paths in order of first opening, none of them empty, and each lists the
signals of its hardware in file order. -/
structure Grouped (opened : List HwPath) (signals : List Signal)
    (groups : List (HwPath × List String)) : Prop where
  keys : groups.map (·.1) = opened.eraseDups
  nonempty : ∀ g ∈ groups, g.1.isEmpty = false
  members : ∀ g ∈ groups, g.2 = (signals.filter (·.hardware == g.1)).map (·.name)

/-- One line keeps the groups: an opening line adds its hardware unless it is already a group,
and a signal joins the group of its hardware. -/
theorem readLine_grouped {st st' : Reading} {line : String} {opened : List HwPath}
    (hst : st.Shaped) (hg : Grouped opened st.signals st.groups) (h : readLine st line = .ok st') :
    Grouped (opened ++ (opening? line).toList) st'.signals st'.groups := by
  rcases readLine_cases h with ⟨hw, hop, hne, rfl⟩ | ⟨hop, rfl⟩ |
    ⟨hop, hw, sig, hcur, hsig, hdup, rfl⟩
  · -- an opening line: a new hardware has no signal yet
    rw [hop]
    refine ⟨?_, fun g hg' => ?_, fun g hg' => ?_⟩
    · rw [Option.toList_some, eraseDups_append_singleton]
      dsimp only
      rw [map_fst_openGroup, hg.keys]
      by_cases hm : hw ∈ opened
      · rw [if_pos (List.mem_eraseDups.2 hm), if_pos hm]
      · rw [if_neg (mt List.mem_eraseDups.1 hm), if_neg hm]
    · rcases mem_openGroup_iff.1 hg' with hg' | ⟨-, rfl⟩
      · exact hg.nonempty g hg'
      · exact hne
    · rcases mem_openGroup_iff.1 hg' with hg' | ⟨hnew, rfl⟩
      · exact hg.members g hg'
      · symm
        simp only [List.map_eq_nil_iff, List.filter_eq_nil_iff, beq_iff_eq]
        intro s hs hsw
        obtain ⟨names, hmem, -⟩ := hst.member s hs
        exact hnew (List.mem_map.2 ⟨_, hmem, hsw⟩)
  · rw [hop]
    simpa using hg
  · -- a signal line: the signal joins the group of the open hardware
    have hhw := hardware_of_readSignal hsig
    rw [hop, Option.toList_none, List.append_nil]
    refine ⟨by rw [map_fst_addMember]; exact hg.keys, fun g hg' => ?_, fun g hg' => ?_⟩
    · obtain ⟨g₀, hg₀, rfl⟩ := List.mem_map.1 hg'
      have := hg.nonempty g₀ hg₀
      split <;> assumption
    · obtain ⟨g₀, hg₀, rfl⟩ := List.mem_map.1 hg'
      have hm := hg.members g₀ hg₀
      by_cases hk : g₀.1 = hw
      · rw [hk] at hm
        simp [hk, hhw, hm, List.filter_append]
      · simp [hk, hhw, hm, List.filter_append, Ne.symm hk]

/-- Every run of lines keeps the groups, with the hardware its entries open. -/
theorem readLines_grouped {st st' : Reading} {ls : List (Nat × String)} {opened : List HwPath}
    (hst : st.Shaped) (hg : Grouped opened st.signals st.groups) (h : readLines st ls = .ok st') :
    Grouped (opened ++ openings (ls.map (·.2))) st'.signals st'.groups := by
  induction ls generalizing st opened with
  | nil =>
    cases h
    simpa [openings] using hg
  | cons p ls ih =>
    obtain ⟨n, raw⟩ := p
    unfold readLines at h
    dsimp only at h
    rw [List.map_cons, openings_cons]
    split at h
    · -- a blank or comment line opens nothing
      rename_i hskip
      have hentry : isEntry (Text.trim raw) = false := by
        simp only [isEntry, hskip, Bool.not_true]
      rw [if_neg (by simp [hentry]), List.nil_append]
      exact ih hst hg h
    · rename_i hentry
      split at h
      · rename_i st'' hl
        have hentry : isEntry (Text.trim raw) = true := by simpa [isEntry] using hentry
        rw [if_pos hentry, ← List.append_assoc]
        exact ih (readLine_shaped hst hl) (readLine_grouped hst hg hl) h
      · cases h

/-- A table read from text has the groups its opening lines name, each listing the signals of
its hardware in file order. -/
theorem parse_grouped {text : String} {t : PinTable} (h : parse text = .ok t) :
    Grouped (openings (Text.lines text)) t.signals t.groups := by
  unfold parse at h
  simp only [bind, Except.bind] at h
  split at h
  · cases h
  · rename_i st hst
    cases h
    have hg0 : Grouped [] [] [] := ⟨rfl, by simp, by simp⟩
    have hrun := readLines_grouped Reading.shaped_empty hg0 hst
    rw [List.nil_append, WaveFile.map_snd_zipIdx _ _ _ fun _ => rfl] at hrun
    exact hrun


/-! ## The signals and width of a group -/

/-- The names of signals of a well-formed table find those signals again. -/
theorem filterMap_find?_map_name {t : PinTable} (ht : t.WellFormed) {l : List Signal}
    (hl : ∀ s ∈ l, s ∈ t.signals) : (l.map (·.name)).filterMap t.find? = l := by
  induction l with
  | nil => rfl
  | cons s l ih =>
    have hs : t.find? s.name = some s := findIn_of_mem ht.nodup (hl s List.mem_cons_self)
    rw [List.map_cons, List.filterMap_cons, hs, ih fun s' h' => hl s' (List.mem_cons_of_mem _ h')]

/-- The signals of a group are those of its hardware, in file order. -/
theorem groupSignals_eq_filter {t : PinTable} (ht : t.WellFormed)
    (hm : ∀ g ∈ t.groups, g.2 = (t.signals.filter (·.hardware == g.1)).map (·.name))
    (hw : HwPath) : t.groupSignals hw = t.signals.filter (·.hardware == hw) := by
  unfold groupSignals
  cases hf : t.groups.find? (·.1 == hw) with
  | some g =>
    have hk : g.1 = hw := by simpa using List.find?_some hf
    obtain ⟨k, names⟩ := g
    have hnames := hm _ (List.mem_of_find?_eq_some hf)
    dsimp only at hk hnames ⊢
    rw [hnames, ← hk]
    exact filterMap_find?_map_name ht fun s hs => (List.mem_filter.1 hs).1
  | none =>
    -- every signal's hardware has a group, so no signal has this one
    symm
    rw [List.filter_eq_nil_iff]
    intro s hs hsw
    obtain ⟨names, hg, -⟩ := ht.member s hs
    have hne := List.find?_eq_none.1 hf _ hg
    simp only [beq_iff_eq] at hsw hne
    exact hne hsw

theorem mem_groupSignals {t : PinTable} (ht : t.WellFormed)
    (hm : ∀ g ∈ t.groups, g.2 = (t.signals.filter (·.hardware == g.1)).map (·.name))
    {hw : HwPath} {s : Signal} : s ∈ t.groupSignals hw ↔ s ∈ t.signals ∧ s.hardware = hw := by
  rw [groupSignals_eq_filter ht hm, List.mem_filter, beq_iff_eq]

theorem nodup_groupSignals_names {t : PinTable} (ht : t.WellFormed)
    (hm : ∀ g ∈ t.groups, g.2 = (t.signals.filter (·.hardware == g.1)).map (·.name))
    (hw : HwPath) : ((t.groupSignals hw).map (·.name)).Nodup := by
  rw [groupSignals_eq_filter ht hm]
  exact ht.nodup.sublist (List.filter_sublist.map _)

section FoldMax

variable {α : Type} (g : α → Nat)

theorem le_foldl_max (l : List α) (a : Nat) :
    a ≤ l.foldl (fun m x => max m (g x)) a ∧ ∀ x ∈ l, g x ≤ l.foldl (fun m x => max m (g x)) a := by
  induction l generalizing a with
  | nil => simp
  | cons y l ih =>
    obtain ⟨ha, hl⟩ := ih (max a (g y))
    refine ⟨(Nat.le_max_left _ _).trans ha, fun x hx => ?_⟩
    rcases List.mem_cons.1 hx with rfl | hx
    · exact (Nat.le_max_right _ _).trans ha
    · exact hl x hx

theorem foldl_max_le (l : List α) {a c : Nat} (ha : a ≤ c) (hl : ∀ x ∈ l, g x ≤ c) :
    l.foldl (fun m x => max m (g x)) a ≤ c := by
  induction l generalizing a with
  | nil => exact ha
  | cons y l ih =>
    exact ih (Nat.max_le.2 ⟨ha, hl y List.mem_cons_self⟩) fun x hx => hl x (List.mem_cons_of_mem _ hx)

theorem foldl_max_eq (l : List α) (a : Nat) :
    l.foldl (fun m x => max m (g x)) a = a ∨ ∃ x ∈ l, l.foldl (fun m x => max m (g x)) a = g x := by
  induction l generalizing a with
  | nil => exact .inl rfl
  | cons y l ih =>
    rcases ih (max a (g y)) with h | ⟨x, hx, h⟩
    · rw [List.foldl_cons, h]
      rcases Nat.le_total a (g y) with hay | hya
      · exact .inr ⟨y, List.mem_cons_self, Nat.max_eq_right hay⟩
      · exact .inl (Nat.max_eq_left hya)
    · exact .inr ⟨x, List.mem_cons_of_mem _ hx, h⟩

end FoldMax

/-! ## The multiplexed pins -/

theorem byBit_append_singleton {signals : List Signal} (names : List String) {n : String}
    {s : Signal} (hs : findIn signals n = some s) :
    byBit signals (names ++ [n]) =
      if (byBit signals names).any (·.1 == s.bit) then
        (byBit signals names).map fun e => if e.1 == s.bit then (e.1, e.2 ++ [n]) else e
      else byBit signals names ++ [(s.bit, [n])] := by
  rw [byBit, List.foldl_append, List.foldl_cons, List.foldl_nil, hs]

/-- Grouping the names of found signals by bit gives each bit, in order of its first signal,
with the names of its signals in order. -/
theorem byBit_map_name {signals sigs : List Signal}
    (hfind : ∀ s ∈ sigs, findIn signals s.name = some s) :
    byBit signals (sigs.map (·.name)) =
      (sigs.map (·.bit)).eraseDups.map fun b => (b, (sigs.filter (·.bit == b)).map (·.name)) := by
  induction sigs using List.reverseRecOn with
  | nil => rfl
  | append_singleton sigs s ih =>
    have hs := hfind s (List.mem_append_right _ (List.mem_singleton_self s))
    rw [List.map_append, List.map_singleton, byBit_append_singleton _ hs,
      ih fun s' h' => hfind s' (List.mem_append_left _ h'), List.map_append, List.map_singleton,
      eraseDups_append_singleton]
    by_cases hb : s.bit ∈ sigs.map (·.bit)
    · -- the bit has an entry: the name joins it
      have hany : ((sigs.map (·.bit)).eraseDups.map fun b =>
          (b, (sigs.filter (·.bit == b)).map (·.name))).any (·.1 == s.bit) = true := by
        simpa [List.mem_eraseDups] using hb
      rw [if_pos hany, if_pos hb, List.map_map]
      refine List.map_congr_left fun b _ => ?_
      by_cases hsb : s.bit = b
      · subst hsb
        simp [List.filter_append]
      · simp [List.filter_append, hsb, Ne.symm hsb]
    · -- a new bit opens an entry at the end
      have hany : ((sigs.map (·.bit)).eraseDups.map fun b =>
          (b, (sigs.filter (·.bit == b)).map (·.name))).any (·.1 == s.bit) = false := by
        simpa [List.mem_eraseDups] using hb
      rw [if_neg (by simp [hany]), if_neg hb, List.map_append, List.map_singleton]
      congr 1
      · refine List.map_congr_left fun b hb' => ?_
        have hsb : s.bit ≠ b := fun h => hb (h ▸ List.mem_eraseDups.1 hb')
        simp [List.filter_append, hsb]
      · have hnone : sigs.filter (·.bit == s.bit) = [] := by
          rw [List.filter_eq_nil_iff]
          intro s' hs' hb'
          exact hb (List.mem_map.2 ⟨s', hs', by simpa using hb'⟩)
        simp [List.filter_append, hnone]


/-- The multiplexed pin at one bit of a group, when two or more of its signals share the bit. -/
def muxAt (hw : HwPath) (sigs : List Signal) (b : Fin 64) : Option MuxGroup :=
  let members := (sigs.filter (·.bit == b)).map (·.name)
  if 1 < members.length then some ⟨hw, b, members⟩ else none

/-- The multiplexed pins of a table, said directly: for each group in order, and each bit of the
group in order of its first signal, the signals of the group at that bit in file order, when
there are two or more. -/
def muxReference (t : PinTable) : List MuxGroup :=
  t.hardware.flatMap fun hw =>
    let sigs := t.signals.filter (·.hardware == hw)
    (sigs.map (·.bit)).eraseDups.filterMap (muxAt hw sigs)

theorem muxAt_eq_some {hw : HwPath} {sigs : List Signal} {b : Fin 64} {m : MuxGroup} :
    muxAt hw sigs b = some m ↔
      m = ⟨hw, b, (sigs.filter (·.bit == b)).map (·.name)⟩ ∧ 1 < m.signals.length := by
  unfold muxAt
  dsimp only
  split
  · rename_i h
    constructor
    · rintro ⟨⟩
      exact ⟨rfl, h⟩
    · rintro ⟨rfl, -⟩
      rfl
  · rename_i h
    constructor
    · rintro ⟨⟩
    · rintro ⟨rfl, h'⟩
      exact absurd h' h

/-- A pin of the reference lies in one group at one bit, with the signals there as members. -/
theorem mem_muxReference {t : PinTable} {m : MuxGroup} :
    m ∈ t.muxReference ↔ m.hardware ∈ t.hardware ∧
      m.signals = ((t.signals.filter (·.hardware == m.hardware)).filter (·.bit == m.bit)).map
        (·.name) ∧ 1 < m.signals.length := by
  unfold muxReference
  simp only [List.mem_flatMap, List.mem_filterMap, muxAt_eq_some]
  constructor
  · rintro ⟨hw, hhw, b, -, rfl, hlen⟩
    exact ⟨hhw, rfl, hlen⟩
  · rintro ⟨hhw, hsig, hlen⟩
    refine ⟨m.hardware, hhw, m.bit, ?_, by rw [← hsig], hlen⟩
    -- two members, so some signal of the group has the bit
    obtain ⟨n, hn⟩ := List.exists_mem_of_length_pos (Nat.lt_of_succ_lt hlen)
    rw [hsig] at hn
    obtain ⟨s, hs, -⟩ := List.mem_map.1 hn
    rw [List.mem_filter] at hs
    exact List.mem_eraseDups.2 (List.mem_map.2 ⟨s, hs.1, by simpa using hs.2⟩)

theorem exists_signal_of_mem_muxReference {t : PinTable} {m : MuxGroup} (hm : m ∈ t.muxReference)
    {n : String} (hn : n ∈ m.signals) :
    ∃ s ∈ t.signals, s.name = n ∧ s.hardware = m.hardware ∧ s.bit = m.bit := by
  rw [(mem_muxReference.1 hm).2.1] at hn
  obtain ⟨s, hs, rfl⟩ := List.mem_map.1 hn
  simp only [List.mem_filter, beq_iff_eq] at hs
  exact ⟨s, hs.1.1, rfl, hs.1.2, hs.2⟩

/-- Two pins of the reference differ in their group or their bit. -/
theorem pairwise_muxReference {t : PinTable} (hk : t.hardware.Nodup) :
    t.muxReference.Pairwise fun m m' => (m.hardware, m.bit) ≠ (m'.hardware, m'.bit) := by
  unfold muxReference
  rw [List.pairwise_flatMap]
  refine ⟨fun hw _ => ?_, hk.imp fun hne m hm m' hm' h => hne ?_⟩
  · -- within a group the bits differ
    rw [List.pairwise_filterMap]
    refine (nodup_eraseDups _).imp fun hne m hm m' hm' h => hne ?_
    rw [muxAt_eq_some] at hm hm'
    rw [hm.1, hm'.1] at h
    exact congrArg Prod.snd h
  · obtain ⟨b, -, hb⟩ := List.mem_filterMap.1 hm
    obtain ⟨b', -, hb'⟩ := List.mem_filterMap.1 hm'
    rw [(muxAt_eq_some.1 hb).1, (muxAt_eq_some.1 hb').1] at h
    exact congrArg Prod.fst h

/-- No group is wider than a word. -/
theorem width_le (t : PinTable) (hw : HwPath) : t.width hw ≤ 64 :=
  foldl_max_le _ _ (Nat.zero_le _) fun s _ => s.bit.isLt

section Table

variable {t : PinTable} (ht : t.WellFormed) {opened : List HwPath}
  (hg : Grouped opened t.signals t.groups)
include ht hg

/-- The multiplexed pins found from the groups are those of the reference. -/
theorem muxGroups_eq_muxReference : t.muxGroups = t.muxReference := by
  rw [ht.muxGroups, findMuxGroups, muxReference, hardware, List.flatMap_map]
  refine List.flatMap_congr fun g hgm => ?_
  obtain ⟨hw, names⟩ := g
  have hnames := hg.members _ hgm
  dsimp only at hnames ⊢
  rw [hnames, byBit_map_name fun s hs => findIn_of_mem ht.nodup (List.mem_filter.1 hs).1,
    List.filterMap_map]
  rfl

/-- Two multiplexed pins with a common member sit at one bit of one group. -/
theorem key_eq_of_mem_muxGroups {m m' : MuxGroup} (hm : m ∈ t.muxGroups) (hm' : m' ∈ t.muxGroups)
    {n : String} (hn : n ∈ m.signals) (hn' : n ∈ m'.signals) :
    (m.hardware, m.bit) = (m'.hardware, m'.bit) := by
  rw [muxGroups_eq_muxReference ht hg] at hm hm'
  obtain ⟨s, hs, rfl, hsw, hsb⟩ := exists_signal_of_mem_muxReference hm hn
  obtain ⟨s', hs', hname, hsw', hsb'⟩ := exists_signal_of_mem_muxReference hm' hn'
  -- one name, one signal
  obtain rfl : s' = s := List.inj_on_of_nodup_map ht.nodup hs' hs hname
  rw [← hsw, ← hsb, ← hsw', ← hsb']

/-- Multiplexed pins share no member. -/
theorem pairwise_disjoint_muxGroups :
    t.muxGroups.Pairwise fun m m' => m.signals.Disjoint m'.signals := by
  have hpair := pairwise_muxReference ht.keys
  rw [← muxGroups_eq_muxReference ht hg] at hpair
  exact hpair.imp_of_mem fun hm hm' hne n hn hn' =>
    hne (key_eq_of_mem_muxGroups ht hg hm hm' hn hn')

/-- The multiplexed pin of a name is the one pin that has it as a member. -/
theorem muxGroupOf?_eq_some_iff {n : String} {m : MuxGroup} :
    t.muxGroupOf? n = some m ↔ m ∈ t.muxGroups ∧ n ∈ m.signals := by
  unfold muxGroupOf?
  constructor
  · intro h
    exact ⟨List.mem_of_find?_eq_some h, by simpa using List.find?_some h⟩
  · rintro ⟨hm, hn⟩
    have hsome : (t.muxGroups.find? (·.signals.contains n)).isSome :=
      List.find?_isSome.2 ⟨m, hm, by simpa using hn⟩
    obtain ⟨m', hm'⟩ := Option.isSome_iff_exists.1 hsome
    have hmem' := List.mem_of_find?_eq_some hm'
    have hn' : n ∈ m'.signals := by simpa using List.find?_some hm'
    -- pins are told apart by group and bit, and both have the member's
    have hnodup : (t.muxGroups.map fun m => (m.hardware, m.bit)).Nodup := by
      have hpair := pairwise_muxReference ht.keys
      rw [← muxGroups_eq_muxReference ht hg] at hpair
      exact List.pairwise_map.2 hpair
    rw [hm', List.inj_on_of_nodup_map hnodup hmem' hm (key_eq_of_mem_muxGroups ht hg hmem' hm hn' hn)]

/-- Each group lists its signals once, so the groups together list every signal once. -/
theorem perm_flatMap_groupSignals : (t.hardware.flatMap t.groupSignals).Perm t.signals := by
  have hfun : t.groupSignals = fun hw => t.signals.filter (·.hardware == hw) :=
    funext (groupSignals_eq_filter ht hg.members)
  rw [hfun]
  refine perm_flatMap_filter ht.keys fun s hs => ?_
  obtain ⟨names, hmem, -⟩ := ht.member s hs
  exact List.mem_map.2 ⟨_, hmem, rfl⟩

/-- A group is wider than the bit of each of its signals. -/
theorem le_width {s : Signal} (hs : s ∈ t.signals) : s.bit.val + 1 ≤ t.width s.hardware := by
  exact (le_foldl_max (fun s : Signal => s.bit.val + 1) (t.groupSignals s.hardware) 0).2 s
    ((mem_groupSignals ht hg.members).2 ⟨hs, rfl⟩)

/-- A group is as wide as the bit after one of its signals, or has no width. -/
theorem width_eq_zero_or (hw : HwPath) :
    t.width hw = 0 ∨ ∃ s ∈ t.signals, s.hardware = hw ∧ t.width hw = s.bit.val + 1 := by
  rcases foldl_max_eq (fun s : Signal => s.bit.val + 1) (t.groupSignals hw) 0 with h | ⟨s, hs, h⟩
  · exact .inl h
  · rw [mem_groupSignals ht hg.members] at hs
    exact .inr ⟨s, hs.1, hs.2, h⟩

end Table

/-! ## The invariant of a read table -/

/-- What a pin table read from `text` is. Its signals have distinct names and bits below 64. Its
groups are the hardware that the text's `HARDWARE <path> BEGIN` lines open, each once, in order
of first opening, and none empty; the signals of a group are the signals of its hardware in file
order, so the groups together list every signal once. Its multiplexed pins are those of the
reference: one per bit of a group that two or more signals share, members in file order, pins in
group order and then in order of a bit's first signal; they share no member, and the pin of a
name is the one pin that has it. A group is one bit wider than its highest signal bit, has no
width without signals, and is at most 64 bits wide. -/
structure Invariant (text : String) (t : PinTable) : Prop where
  nodup : (t.signals.map (·.name)).Nodup
  bit_lt : ∀ s ∈ t.signals, s.bit.val < 64
  hardware_eq : t.hardware = (openings (Text.lines text)).eraseDups
  nonempty : ∀ hw ∈ t.hardware, hw.isEmpty = false
  groupSignals_eq : ∀ hw, t.groupSignals hw = t.signals.filter (·.hardware == hw)
  partition : (t.hardware.flatMap t.groupSignals).Perm t.signals
  muxGroups_eq : t.muxGroups = t.muxReference
  disjoint : t.muxGroups.Pairwise fun m m' => m.signals.Disjoint m'.signals
  muxGroupOf : ∀ n m, t.muxGroupOf? n = some m ↔ m ∈ t.muxGroups ∧ n ∈ m.signals
  le_width : ∀ s ∈ t.signals, s.bit.val + 1 ≤ t.width s.hardware
  width_eq : ∀ hw, t.width hw = 0 ∨ ∃ s ∈ t.signals, s.hardware = hw ∧ t.width hw = s.bit.val + 1
  width_le : ∀ hw, t.width hw ≤ 64

/-- Every pin table read from text satisfies the invariant. -/
theorem parse_invariant {text : String} {t : PinTable} (h : parse text = .ok t) :
    t.Invariant text := by
  have ht := parse_wellFormed h
  have hg := parse_grouped h
  refine ⟨ht.nodup, fun s _ => s.bit.isLt, hg.keys, fun hw hw' => ?_,
    groupSignals_eq_filter ht hg.members, perm_flatMap_groupSignals ht hg,
    muxGroups_eq_muxReference ht hg, pairwise_disjoint_muxGroups ht hg,
    fun _ _ => muxGroupOf?_eq_some_iff ht hg, fun _ hs => le_width ht hg hs,
    width_eq_zero_or ht hg, width_le t⟩
  obtain ⟨g, hgm, rfl⟩ := List.mem_map.1 hw'
  exact hg.nonempty g hgm

/-- A table with a comment, a group left open when the next begins, a reopened group and a
multiplexed pin satisfies the invariant. -/
theorem parse_invariant_sample :
    let text := "// pins\nHARDWARE A/x BEGIN\nS,I,0\nT,O,0\nHARDWARE B/y BEGIN\nU,I,3,1\n" ++
      "HARDWARE A/x BEGIN\nV,I,1\nEND\n"
    ∃ t, parse text = .ok t ∧ t.Invariant text := by
  intro text
  have hok : (parse text).toOption.isSome = true := by decide +kernel
  cases ht : parse text with
  | error e =>
    rw [ht] at hok
    cases hok
  | ok t => exact ⟨t, rfl, parse_invariant ht⟩

end PinWave.PinTable
