import PinWave.Decimal.Layout
import PinWave.Proofs.Decimal.Shortest
import PinWave.Proofs.Text.Lines
/-!
# Writing a double and reading it back

Every double but NaN is read back from its tagged text as itself. The text is a sign and the
shortest digits `c · 10^s`, laid out positionally or in scientific form; either layout reads as a
decimal `D · 10^X` of the same value, though not always with the same digits (a positional
whole number gains `.0`, a scientific one has a point after its first digit). The reader's
answer depends only on the value (`nearestBits_eq_bits` needs nothing else), so it is the
magnitude's bits, and with the sign they are the double's own bits. Zeros and infinities are
written as words and numbers the reader takes literally.

## Main statements
* `readUnsigned?_point`: digits, a point, digits and an exponent read as their decimal.
* `readUnsigned?_positional`, `readUnsigned?_scientific`: both layouts read as `c · 10^s`.
* `readFloat?_render_tagged`: a double that is not NaN reads back from its tagged text.
-/

namespace PinWave.Decimal

/-! ## Digits -/

theorem digitsValue_eq_ofDigitChars (ds : List Char) : digitsValue ds = Nat.ofDigitChars 10 ds 0 :=
  rfl

@[simp] theorem digitsValue_digitChars (c : ℕ) : digitsValue (digitChars c) = c :=
  Nat.ofDigitChars_ten_toDigits

theorem digitsValue_append (l m : List Char) :
    digitsValue (l ++ m) = 10 ^ m.length * digitsValue l + digitsValue m := by
  simp only [digitsValue_eq_ofDigitChars, Nat.ofDigitChars_append]
  exact Nat.ofDigitChars_eq_ofDigitChars_zero

@[simp] theorem digitsValue_replicate_zero (k : ℕ) : digitsValue (List.replicate k '0') = 0 := by
  simp [digitsValue_eq_ofDigitChars]

theorem isDigit_of_mem_digitChars {c : ℕ} {d : Char} (h : d ∈ digitChars c) : d.isDigit = true :=
  Nat.isDigit_of_mem_toDigits (by omega) (by omega) h

theorem digitChars_ne_nil (c : ℕ) : digitChars c ≠ [] := Nat.toDigits_ne_nil

theorem toLower_of_isDigit {d : Char} (h : d.isDigit = true) : d.toLower = d := by
  simp only [Char.isDigit, Bool.and_eq_true, decide_eq_true_eq] at h
  unfold Char.toLower
  rw [dif_neg]
  rintro ⟨h1, -⟩
  have h2 := h.2
  simp only [UInt32.le_iff_toNat_le, ge_iff_le] at h1 h2
  have hA : 'A'.val.toNat = 65 := rfl
  have h9 : '9'.val.toNat = 57 := rfl
  omega

/-- Text that starts with a digit is none of the words `inf`, `infinity`, `nan`. -/
theorem sameLetters_of_isDigit {d : Char} (hd : d.isDigit = true) (rest w : List Char)
    (hw : ((w.map Char.toLower).head?.all fun c => !c.isDigit) = true) :
    sameLetters (d :: rest) w = false := by
  cases w with
  | nil => simp [sameLetters]
  | cons c w =>
    have hc : c.toLower.isDigit = false := by simpa using hw
    simp only [sameLetters, List.map_cons, toLower_of_isDigit hd, beq_eq_false_iff_ne, ne_eq,
      List.cons.injEq, not_and]
    rintro rfl
    simp [hd] at hc

theorem exists_digitChars_cons (c : ℕ) : ∃ d ds, digitChars c = d :: ds ∧ d.isDigit = true := by
  obtain ⟨d, ds, h⟩ := List.exists_cons_of_ne_nil (digitChars_ne_nil c)
  exact ⟨d, ds, h, isDigit_of_mem_digitChars (by rw [h]; exact List.mem_cons_self)⟩

theorem all_isDigit_digitChars (c : ℕ) : (digitChars c).all Char.isDigit = true :=
  List.all_eq_true.2 fun _ h => isDigit_of_mem_digitChars h

/-! ## The exponent -/

/-- The unsigned digits of an exponent read as their number. -/
theorem readExponent?_digitChars (n : ℕ) :
    readExponent? ('e' :: digitChars n) = some (n : ℤ) := by
  obtain ⟨d, ds, h, hd⟩ := exists_digitChars_cons n
  have hd1 : d ≠ '-' := by rintro rfl; simp at hd
  have hd2 : d ≠ '+' := by rintro rfl; simp at hd
  have hall := all_isDigit_digitChars n
  have hv := digitsValue_digitChars n
  rw [h] at hall hv
  rw [h]
  simp only [readExponent?, beq_self_eq_true, Bool.true_or, if_true]
  split
  · rename_i heq
    exact absurd (List.cons.inj heq).1 hd1
  · rename_i heq
    exact absurd (List.cons.inj heq).1 hd2
  · simp [hall, hv]

theorem readExponent?_toString (e : ℤ) : readExponent? ('e' :: (toString e).toList) = some e := by
  rw [Int.toString_eq_repr, Int.repr_eq_if]
  split
  · rename_i he
    rw [Nat.toList_repr]
    exact (readExponent?_digitChars e.toNat).trans (by rw [Int.toNat_of_nonneg he])
  · rename_i he
    have hv := digitsValue_digitChars (-e).toNat
    simp only [digitChars] at hv
    simp only [String.toList_append, Nat.toList_repr]
    simp [readExponent?, hv]
    refine ⟨fun x hx => isDigit_of_mem_digitChars hx, by omega⟩

/-! ## Unsigned decimals -/

section Unsigned

variable {t : List Char}

theorem not_inf_nan {d : Char} (hd : d.isDigit = true) (rest : List Char) :
    (sameLetters (d :: rest) "inf".toList || sameLetters (d :: rest) "infinity".toList) = false ∧
      sameLetters (d :: rest) "nan".toList = false := by
  rw [sameLetters_of_isDigit hd rest "inf".toList (by decide),
    sameLetters_of_isDigit hd rest "infinity".toList (by decide),
    sameLetters_of_isDigit hd rest "nan".toList (by decide)]
  exact ⟨rfl, rfl⟩

variable {d : Char} {w f : List Char} {e : ℤ}

/-- Digits, a point, digits and an exponent read as the decimal of all the digits, its power of
ten lowered by the digits after the point. -/
theorem readUnsigned?_point (neg : Bool) (hd : d.isDigit = true) (hw : ∀ c ∈ w, c.isDigit = true)
    (hf : ∀ c ∈ f, c.isDigit = true) (ht : readExponent? t = some e)
    (ht' : ∀ c ∈ t.head?, c.isDigit = false) :
    readUnsigned? neg ((d :: w) ++ '.' :: (f ++ t)) =
      some (nearest neg (digitsValue ((d :: w) ++ f)) (e - f.length)) := by
  have hdw : ∀ c ∈ d :: w, c.isDigit = true := by
    simpa only [List.mem_cons, forall_eq_or_imp] using And.intro hd hw
  obtain ⟨h1, h2⟩ := not_inf_nan hd (w ++ '.' :: (f ++ t))
  unfold readUnsigned?
  rw [List.cons_append, h1, if_neg Bool.false_ne_true, h2, if_neg Bool.false_ne_true,
    ← List.cons_append]
  simp only [List.takeWhile_append_of_pos hdw, List.dropWhile_append_of_pos hdw,
    List.takeWhile_append_of_pos hf, List.dropWhile_append_of_pos hf, Text.takeWhile_of_head ht',
    Text.dropWhile_of_head ht', List.takeWhile_cons_of_neg (show ¬('.'.isDigit = true) by decide),
    List.dropWhile_cons_of_neg (show ¬('.'.isDigit = true) by decide), List.append_nil, ht]
  simp

/-- Digits and an exponent with no point read as the decimal of the digits. -/
theorem readUnsigned?_exponent (neg : Bool) (hd : d.isDigit = true)
    (hw : ∀ c ∈ w, c.isDigit = true) {u : List Char} (ht : readExponent? ('e' :: u) = some e) :
    readUnsigned? neg ((d :: w) ++ 'e' :: u) = some (nearest neg (digitsValue (d :: w)) e) := by
  have hdw : ∀ c ∈ d :: w, c.isDigit = true := by
    simpa only [List.mem_cons, forall_eq_or_imp] using And.intro hd hw
  obtain ⟨h1, h2⟩ := not_inf_nan hd (w ++ 'e' :: u)
  unfold readUnsigned?
  rw [List.cons_append, h1, if_neg Bool.false_ne_true, h2, if_neg Bool.false_ne_true,
    ← List.cons_append]
  simp only [List.takeWhile_append_of_pos hdw, List.dropWhile_append_of_pos hdw,
    List.takeWhile_cons_of_neg (show ¬('e'.isDigit = true) by decide),
    List.dropWhile_cons_of_neg (show ¬('e'.isDigit = true) by decide), List.append_nil]
  simp [ht]

/-- A text that starts with a digit and reads as the decimal `c · 10^s` up to its value: the
reader gives the double nearest to some `D · 10^X` equal to `c · 10^s`, with the sign it was
given. -/
structure ReadsAs (cs : List Char) (c : ℕ) (s : ℤ) : Prop where
  head : ∃ d rest, cs = d :: rest ∧ d.isDigit = true
  reads : ∀ neg, ∃ D X, readUnsigned? neg cs = some (nearest neg D X) ∧ (D : ℚ) * 10 ^ X = c * 10 ^ s

@[simp] theorem digitsValue_zero_char : digitsValue ['0'] = 0 := rfl

theorem digitsValue_cons_zero (ds : List Char) : digitsValue ('0' :: ds) = digitsValue ds := by
  simpa using digitsValue_append ['0'] ds

/-- Digits, a point and digits read as the decimal of all the digits, its power of ten lowered by
the digits after the point. -/
theorem readsAs_point {c : ℕ} {s : ℤ} (hw : w ≠ []) (hwd : ∀ x ∈ w, x.isDigit = true)
    (hf : ∀ x ∈ f, x.isDigit = true)
    (hval : (digitsValue (w ++ f) : ℚ) * 10 ^ (-(f.length : ℤ)) = c * 10 ^ s) :
    ReadsAs (w ++ '.' :: f) c s := by
  obtain ⟨d, w, rfl⟩ := List.exists_cons_of_ne_nil hw
  have hd := hwd d List.mem_cons_self
  refine ⟨⟨d, _, rfl, hd⟩, fun neg => ⟨digitsValue ((d :: w) ++ f), 0 - f.length, ?_, ?_⟩⟩
  · simpa using readUnsigned?_point (t := []) neg hd (fun x hx => hwd x (List.mem_cons_of_mem _ hx))
      hf rfl (by simp)
  · simpa using hval

/-- The positional layout reads as its digits: a whole number through its `.0`, a fraction
through the point inside or in front of its digits. -/
theorem readsAs_positional (c : ℕ) (s : ℤ) : ReadsAs (positional c s true).toList c s := by
  have hall : ∀ x ∈ digitChars c, x.isDigit = true := fun _ h => isDigit_of_mem_digitChars h
  have hv := digitsValue_digitChars c
  unfold positional
  dsimp only
  split
  · -- a whole number: the digits, `s` zeros, and `.0`
    rename_i hs
    have htext : (String.ofList (digitChars c ++ List.replicate s.toNat '0') ++
        (if true = true then ".0" else "")).toList =
        (digitChars c ++ List.replicate s.toNat '0') ++ '.' :: ['0'] := by
      simp only [String.toList_append, String.toList_ofList, if_true]
      rfl
    rw [htext]
    refine readsAs_point (by simp [digitChars_ne_nil]) (fun x hx => ?_) (by simp) ?_
    · rcases List.mem_append.1 hx with hx | hx
      · exact hall x hx
      · rw [List.eq_of_mem_replicate hx]; rfl
    · rw [digitsValue_append, digitsValue_append, hv]
      simp only [digitsValue_replicate_zero, List.length_replicate, List.length_singleton,
        digitsValue_zero_char]
      push_cast
      rw [← zpow_natCast, Int.toNat_of_nonneg hs, zpow_neg_one]
      field_simp
      ring
  · rename_i hs
    have hk : ((-s).toNat : ℤ) = -s := Int.toNat_of_nonneg (by omega)
    split
    · -- a fraction with a whole part: the point inside the digits
      rename_i hlt
      rw [String.toList_ofList]
      refine readsAs_point ?_ (fun x hx => hall x (List.mem_of_mem_take hx))
        (fun x hx => hall x (List.mem_of_mem_drop hx)) ?_
      · simp only [ne_eq, List.take_eq_nil_iff, not_or]
        exact ⟨by omega, digitChars_ne_nil c⟩
      · rw [List.take_append_drop, hv, List.length_drop]
        congr 2
        omega
    · -- a fraction below one: a zero, the point, zeros, then the digits
      rename_i hge
      rw [String.toList_ofList]
      refine readsAs_point (w := ['0']) (by simp) (by simp) (fun x hx => ?_) ?_
      · rcases List.mem_append.1 hx with hx | hx
        · rw [List.eq_of_mem_replicate hx]; rfl
        · exact hall x hx
      · rw [List.singleton_append, digitsValue_cons_zero, digitsValue_append, hv]
        simp only [digitsValue_replicate_zero, mul_zero, zero_add, List.length_append,
          List.length_replicate]
        congr 2
        omega

/-- The scientific layout reads as its digits: the leading digit, the others after the point,
and the power of ten of the leading digit. -/
theorem readsAs_scientific (c : ℕ) (s : ℤ) : ReadsAs (scientific c s).toList c s := by
  obtain ⟨d, ds, hds, hd⟩ := exists_digitChars_cons c
  have hall : ∀ x ∈ digitChars c, x.isDigit = true := fun _ h => isDigit_of_mem_digitChars h
  have hv := digitsValue_digitChars c
  have hexp := readExponent?_toString (s + (digitChars c).length - 1)
  unfold scientific
  dsimp only
  rw [hds] at hexp hv hall ⊢
  cases ds with
  | nil =>
    refine ⟨⟨d, _, by simp; rfl, hd⟩, fun neg => ⟨digitsValue [d], s + 1 - 1, ?_, by rw [hv]; simp⟩⟩
    simpa using readUnsigned?_exponent (w := []) neg hd (by simp) hexp
  | cons d' ds =>
    refine ⟨⟨d, _, by simp; rfl, hd⟩, fun neg => ⟨digitsValue ([d] ++ d' :: ds),
      s + ((d :: d' :: ds).length : ℤ) - 1 - ((d' :: ds).length : ℤ), ?_, ?_⟩⟩
    · simpa using readUnsigned?_point (w := []) (t := 'e' :: _) neg hd (by simp)
        (fun x hx => hall x (List.mem_cons_of_mem _ hx)) hexp (by simp)
    · rw [List.singleton_append, hv]
      congr 2
      simp only [List.length_cons]
      omega

end Unsigned

/-! ## Reading back a double -/

/-- A sign written in front of text that starts with neither sign is the sign the reader takes. -/
theorem readFloat?_signed (neg : Bool) {d : Char} {rest : List Char} (body : String)
    (hb : body.toList = d :: rest) (hd : d ≠ '-' ∧ d ≠ '+') :
    readFloat? ((if neg then "-" else "") ++ body) = readUnsigned? neg body.toList := by
  cases neg
  · rw [if_neg Bool.false_ne_true, String.empty_append]
    unfold readFloat?
    rw [hb]
    split
    · rename_i heq
      exact absurd (List.cons.inj heq).1 hd.1
    · rename_i heq
      exact absurd (List.cons.inj heq).1 hd.2
    · rfl
  · simp [readFloat?]

theorem readFloat?_of_readsAs {x : Float} {b : Binary} (h : Kind.ofFloat x = .finite b)
    {body : String} {c : ℕ} {s : ℤ} (hr : ReadsAs body.toList c s)
    (hbits : ∀ (D : ℕ) (X : ℤ), (D : ℚ) * 10 ^ X = c * 10 ^ s → nearestBits D X = b.bits) :
    readFloat? ((if b.neg then "-" else "") ++ body) = some x := by
  obtain ⟨d, rest, hcs, hd⟩ := hr.head
  have hsign : d ≠ '-' ∧ d ≠ '+' := ⟨by rintro rfl; simp at hd, by rintro rfl; simp at hd⟩
  obtain ⟨D, X, hread, hval⟩ := hr.reads b.neg
  rw [readFloat?_signed b.neg body hcs hsign, hread, nearest_of_bits h (hbits D X hval)]

/-- Every double but NaN reads back from its tagged text as itself. -/
theorem readFloat?_render_tagged (x : Float) (h : x.isNaN = false) :
    readFloat? (Layout.tagged.render x) = some x := by
  unfold Layout.render
  split
  · rename_i hk
    rw [Kind.isNaN_of_ofFloat hk] at h
    cases h
  · -- an infinity is the word `inf` and its sign
    rename_i neg hk
    have hw := Kind.ofBits_eq_infinite hk
    rw [show Layout.tagged.infText = "inf" from rfl, readFloat?_signed neg "inf" rfl (by decide)]
    rw [← Double.ofBits_toBits x, show x.toBits = UInt64.ofNat x.toBits.toNat by simp, hw]
    cases neg <;> decide
  · rename_i b hk
    have hb := Kind.legal_of_ofBits hk
    dsimp only
    split
    · -- a zero is written `0.0`, which reads as the word with only the sign
      rename_i hm
      refine readFloat?_of_readsAs hk (readsAs_positional 0 0) fun D X hDX => ?_
      have hD : D = 0 := by
        have h0 : (D : ℚ) * 10 ^ X = 0 := by simpa using hDX
        exact_mod_cast (mul_eq_zero.1 h0).resolve_right (zpow_ne_zero _ (by norm_num))
      have hexp : b.exp = -1074 := by
        by_contra hne
        have := hb.normal (by have := hb.exp_ge; omega)
        omega
      simp [hD, nearestBits, Binary.bits, hexp, hm]
    · rename_i hm
      rcases hcs : b.shortest with ⟨c, s⟩
      have hbr := Binary.shortest_brackets hb (Nat.pos_of_ne_zero hm)
      rw [hcs] at hbr
      have hbits : ∀ (D : ℕ) (X : ℤ), (D : ℚ) * 10 ^ X = c * 10 ^ s → nearestBits D X = b.bits :=
        fun D X hDX => nearestBits_eq_bits hb (Nat.pos_of_ne_zero hm) (hDX ▸ hbr)
      dsimp only
      split
      · exact readFloat?_of_readsAs hk (readsAs_scientific c s) hbits
      · exact readFloat?_of_readsAs hk (readsAs_positional c s) hbits

/-! ## No blanks in the text -/

theorem isBlank_digitChars {c : ℕ} {ch : Char} (h : ch ∈ digitChars c) : Text.isBlank ch = false :=
  Text.isBlank_of_isDigit (isDigit_of_mem_digitChars h)

theorem isBlank_positional (c : ℕ) (s : ℤ) (k : Bool) :
    ∀ ch ∈ (positional c s k).toList, Text.isBlank ch = false := by
  intro ch hch
  unfold positional at hch
  dsimp only at hch
  split at hch
  · simp only [String.toList_append, String.toList_ofList, List.mem_append,
      List.mem_replicate] at hch
    rcases hch with (h | ⟨-, rfl⟩) | h
    · exact isBlank_digitChars h
    · decide
    · split at h <;> simp at h
      rcases h with rfl | rfl <;> decide
  · split at hch
    · simp only [String.toList_ofList, List.mem_append, List.mem_cons] at hch
      rcases hch with h | rfl | h
      · exact isBlank_digitChars (List.mem_of_mem_take h)
      · decide
      · exact isBlank_digitChars (List.mem_of_mem_drop h)
    · simp only [String.toList_ofList, List.mem_cons, List.mem_append, List.mem_replicate] at hch
      rcases hch with rfl | rfl | ⟨-, rfl⟩ | h
      · decide
      · decide
      · decide
      · exact isBlank_digitChars h

theorem isBlank_scientific (c : ℕ) (s : ℤ) :
    ∀ ch ∈ (scientific c s).toList, Text.isBlank ch = false := by
  intro ch hch
  unfold scientific at hch
  dsimp only at hch
  simp only [String.toList_append, List.mem_append] at hch
  rcases hch with (h | h) | h
  · -- the mantissa: digits of `c` and a point
    split at h
    · rw [show "0".toList = ['0'] from rfl, List.mem_singleton] at h
      rw [h]
      decide
    · rename_i d heq
      simp only [String.toList_ofList, List.mem_singleton] at h
      exact isBlank_digitChars (by rw [heq, h]; exact List.mem_singleton_self d)
    · rename_i d rest _ heq
      simp only [String.toList_ofList, List.mem_cons] at h
      rcases h with rfl | rfl | h
      · exact isBlank_digitChars (by rw [heq]; exact List.mem_cons_self)
      · decide
      · exact isBlank_digitChars (by rw [heq]; exact List.mem_cons_of_mem _ h)
  · rw [show "e".toList = ['e'] from rfl, List.mem_singleton] at h
    rw [h]
    decide
  · -- the power of ten: a sign and digits
    rw [Int.toString_eq_repr, Int.repr_eq_if] at h
    split at h
    · rw [Nat.toList_repr] at h
      exact isBlank_digitChars h
    · rw [String.toList_append, Nat.toList_repr, List.mem_append] at h
      rcases h with h | h
      · rw [show "-".toList = ['-'] from rfl, List.mem_singleton] at h
        rw [h]
        decide
      · exact isBlank_digitChars h

theorem isBlank_sign (neg : Bool) : ∀ ch ∈ (if neg then "-" else "").toList, Text.isBlank ch = false := by
  cases neg <;> exact Text.isBlank_of_all (by decide)

/-- The tagged text of a double holds no blank, so no line that carries it is cut or trimmed
inside it. -/
theorem isBlank_render_tagged (x : Float) :
    ∀ ch ∈ (Layout.tagged.render x).toList, Text.isBlank ch = false := by
  intro ch hch
  unfold Layout.render at hch
  split at hch
  · exact Text.isBlank_of_all (by decide) ch hch
  · rename_i neg _
    rw [String.toList_append, List.mem_append] at hch
    rcases hch with h | h
    · exact isBlank_sign neg ch h
    · exact Text.isBlank_of_all (by decide) ch h
  · rename_i b _
    dsimp only at hch
    split at hch
    · rw [String.toList_append, List.mem_append] at hch
      rcases hch with h | h
      · exact isBlank_sign _ ch h
      · exact isBlank_positional 0 0 _ ch h
    · split at hch
      · rw [String.toList_append, List.mem_append] at hch
        rcases hch with h | h
        · exact isBlank_sign _ ch h
        · exact isBlank_scientific _ _ ch h
      · rw [String.toList_append, List.mem_append] at hch
        rcases hch with h | h
        · exact isBlank_sign _ ch h
        · exact isBlank_positional _ _ _ ch h

end PinWave.Decimal
