import SolidityAst.Proofs.Text.Utf8Decode

/-!
The runes of a byte string, said by the encoding alone.

`Reads` cuts a byte string into the encodings of characters and into single bytes at which no encoding
starts.  It leaves no choice, and decoding computes it; so a byte string without stray bytes is the
encoding of its characters.
-/
namespace SolidityAst.Text.Utf8

/-- The runes of a byte string: the character whose encoding comes next, or else the next byte. -/
inductive Reads : Bytes → List Rune → Prop
  | nil : Reads [] []
  | char (c : Char) {rest : Bytes} {rs : List Rune} :
      Reads rest rs → Reads (encodeChar c ++ rest) (.char c :: rs)
  | stray (b : UInt8) {rest : Bytes} {rs : List Rune} :
      (∀ c, ¬ encodeChar c <+: b :: rest) → Reads rest rs → Reads (b :: rest) (.stray b :: rs)

/-! ## Sequences of each length, read backwards -/

section

variable {a b c d : UInt8} {ch : Char}

theorem toNat_ofNat {n : Nat} (hlast : n < 0x110000) (hhalf : n < 0xD800 ∨ 0xE000 ≤ n) :
    (Char.ofNat n).toNat = n := by
  have hvalid : n.isValidChar := by
    rcases hhalf with h | h
    · exact .inl h
    · exact .inr ⟨by omega, hlast⟩
  rw [Char.ofNat, dif_pos hvalid]
  exact UInt32.toNat_ofNatLT

theorem toUInt8_of_eq {n : Nat} (h : n = b.toNat) : n.toUInt8 = b := by
  rw [h]
  exact UInt8.ofNat_toNat

theorem isContinuation_iff : isContinuation b = true ↔ 0x80 ≤ b.toNat ∧ b.toNat ≤ 0xBF := by
  simp only [isContinuation, Bool.and_eq_true, decide_eq_true_eq, UInt8.le_iff_toNat_le]
  exact Iff.rfl

theorem encodeChar_of_two? (h : two? a b = some ch) : encodeChar ch = [a, b] := by
  unfold two? at h
  split at h
  next hcond =>
    simp only [Bool.and_eq_true, decide_eq_true_eq, UInt8.le_iff_toNat_le, isContinuation_iff] at hcond
    obtain ⟨⟨ha, ha'⟩, hb⟩ := hcond
    have hlow : 0xC2 ≤ a.toNat := ha
    have hhigh : a.toNat ≤ 0xDF := ha'
    cases h
    unfold encodeChar payload
    rw [toNat_ofNat (by omega) (by omega)]
    dsimp only
    rw [if_neg (by omega), if_pos (by omega), toUInt8_of_eq (b := a) (by omega),
      toUInt8_of_eq (b := b) (by omega)]
  next => cases h

theorem encodeChar_of_three? (h : three? a b c = some ch) : encodeChar ch = [a, b, c] := by
  unfold three? at h
  split at h
  next hcond =>
    simp only [Bool.and_eq_true, Bool.or_eq_true, bne_iff_ne, decide_eq_true_eq, UInt8.le_iff_toNat_le,
      isContinuation_iff, ne_eq, ← UInt8.toNat_inj] at hcond
    obtain ⟨⟨⟨⟨⟨ha, ha'⟩, hb⟩, hc⟩, hlong⟩, hhalf⟩ := hcond
    have hlow : 0xE0 ≤ a.toNat := ha
    have hhigh : a.toNat ≤ 0xEF := ha'
    have hlong' : ¬ a.toNat = 0xE0 ∨ 0xA0 ≤ b.toNat := hlong
    have hhalf' : ¬ a.toNat = 0xED ∨ b.toNat ≤ 0x9F := hhalf
    cases h
    unfold encodeChar payload
    rw [toNat_ofNat (by omega) (by omega)]
    dsimp only
    rw [if_neg (by omega), if_neg (by omega), if_pos (by omega), toUInt8_of_eq (b := a) (by omega),
      toUInt8_of_eq (b := b) (by omega), toUInt8_of_eq (b := c) (by omega)]
  next => cases h

theorem encodeChar_of_four? (h : four? a b c d = some ch) : encodeChar ch = [a, b, c, d] := by
  unfold four? at h
  split at h
  next hcond =>
    simp only [Bool.and_eq_true, Bool.or_eq_true, bne_iff_ne, decide_eq_true_eq, UInt8.le_iff_toNat_le,
      isContinuation_iff, ne_eq, ← UInt8.toNat_inj] at hcond
    obtain ⟨⟨⟨⟨⟨⟨ha, ha'⟩, hb⟩, hc⟩, hd⟩, hlong⟩, hlast⟩ := hcond
    have hlow : 0xF0 ≤ a.toNat := ha
    have hhigh : a.toNat ≤ 0xF4 := ha'
    have hlong' : ¬ a.toNat = 0xF0 ∨ 0x90 ≤ b.toNat := hlong
    have hlast' : ¬ a.toNat = 0xF4 ∨ b.toNat ≤ 0x8F := hlast
    cases h
    unfold encodeChar payload
    rw [toNat_ofNat (by omega) (by omega)]
    dsimp only
    rw [if_neg (by omega), if_neg (by omega), if_neg (by omega), toUInt8_of_eq (b := a) (by omega),
      toUInt8_of_eq (b := b) (by omega), toUInt8_of_eq (b := c) (by omega),
      toUInt8_of_eq (b := d) (by omega)]
  next => cases h

theorem one_cases (a : UInt8) :
    (∃ ch, one a = .char ch ∧ encodeChar ch = [a]) ∨ one a = .stray a := by
  unfold one
  split
  next hlt =>
    left
    have hlow : a.toNat < 0x80 := UInt8.lt_iff_toNat_lt.mp hlt
    refine ⟨_, rfl, ?_⟩
    unfold encodeChar
    rw [toNat_ofNat (by omega) (by omega)]
    dsimp only
    rw [if_pos hlow, toUInt8_of_eq rfl]
  next => exact .inr rfl

end

/-! ## One rune, then all -/

/-- The next rune is a character whose encoding comes next, or the next byte. -/
theorem first_cases (a : UInt8) (rest : Bytes) :
    (∃ ch k, first a rest = (.char ch, k) ∧ encodeChar ch ++ rest.drop k = a :: rest) ∨
      first a rest = (.stray a, 0) := by
  -- A byte that starts no longer sequence stands alone, whatever follows.
  have halone : (∃ ch k, (one a, 0) = (Rune.char ch, k) ∧ encodeChar ch ++ rest.drop k = a :: rest) ∨
      (one a, 0) = (Rune.stray a, 0) := by
    rcases one_cases a with ⟨ch, hch, henc⟩ | hstray
    · left
      exact ⟨ch, 0, by rw [hch], by rw [henc]; rfl⟩
    · right
      rw [hstray]
  fun_cases first a rest with
  | case1 => exact halone
  | case2 b rest ch hch => exact .inl ⟨ch, 1, rfl, by rw [encodeChar_of_two? hch]; rfl⟩
  | case3 b htwo => exact halone
  | case4 b htwo c rest ch hch => exact .inl ⟨ch, 2, rfl, by rw [encodeChar_of_three? hch]; rfl⟩
  | case5 b htwo c hthree => exact halone
  | case6 b htwo c hthree d rest ch hch =>
    exact .inl ⟨ch, 3, rfl, by rw [encodeChar_of_four? hch]; rfl⟩
  | case7 b htwo c hthree d rest hfour => exact halone

@[simp] theorem decode_encodeChar_append (c : Char) (rest : Bytes) :
    decode (encodeChar c ++ rest) = .char c :: decode rest :=
  decodeAfter_encodeChar c rest

-- Where an encoding starts, decoding reads it, so a byte read as stray starts none.
theorem not_encodeChar_of_stray {a : UInt8} {rest : Bytes} (h : first a rest = (.stray a, 0)) (c : Char) :
    ¬ encodeChar c <+: a :: rest := by
  rintro ⟨rest', henc⟩
  have hdecode : decode (a :: rest) = .stray a :: decodeAfter 0 rest := by rw [decode, decodeAfter, h]
  rw [← henc, decode_encodeChar_append] at hdecode
  cases hdecode

theorem reads_decodeAfter (k : Nat) (bs : Bytes) : Reads (bs.drop k) (decodeAfter k bs) := by
  induction bs generalizing k with
  | nil =>
    rw [List.drop_nil, decodeAfter]
    exact .nil
  | cons a rest ih =>
    cases k with
    | succ k => exact ih k
    | zero =>
      rw [List.drop_zero, decodeAfter]
      rcases first_cases a rest with ⟨ch, k, hchar, henc⟩ | hstray
      · rw [hchar, ← henc]
        exact Reads.char ch (ih k)
      · rw [hstray]
        exact Reads.stray a (not_encodeChar_of_stray hstray) (ih 0)

theorem reads_decode (bs : Bytes) : Reads bs (decode bs) := reads_decodeAfter 0 bs

/-- Every byte string has one reading, and decoding gives it. -/
theorem reads_iff {bs : Bytes} {rs : List Rune} : Reads bs rs ↔ decode bs = rs := by
  constructor
  · intro h
    induction h with
    | nil => rfl
    | char c _ ih => simp [ih]
    | stray b hnone _ ih =>
      rcases first_cases b _ with ⟨ch, k, -, henc⟩ | hstray
      · exact absurd ⟨_, henc⟩ (hnone ch)
      · rw [decode, decodeAfter, hstray, ← decode, ih]
  · rintro rfl
    exact reads_decode bs

theorem decode_ne_nil {bs : Bytes} (h : bs ≠ []) : decode bs ≠ [] := by
  intro hnil
  cases reads_iff.mpr hnil
  exact h rfl

/-! ## The bytes of runes -/

@[simp] theorem encodeRunes_cons (r : Rune) (rs : List Rune) : encodeRunes (r :: rs) = runeBytes r ++ encodeRunes rs :=
  List.flatMap_cons

@[simp] theorem encodeRunes_append (rs rs' : List Rune) :
    encodeRunes (rs ++ rs') = encodeRunes rs ++ encodeRunes rs' := List.flatMap_append

theorem Reads.encodeRunes_eq {bs : Bytes} {rs : List Rune} (h : Reads bs rs) : encodeRunes rs = bs := by
  induction h with
  | nil => rfl
  | char c _ ih => rw [encodeRunes_cons, ih, runeBytes]
  | stray b _ _ ih =>
    rw [encodeRunes_cons, ih]
    rfl

theorem Reads.of_append_right {bs : Bytes} {rs rs' : List Rune} (h : Reads bs (rs ++ rs')) :
    Reads (encodeRunes rs') rs' := by
  induction rs generalizing bs with
  | nil =>
    rw [List.nil_append] at h
    rwa [h.encodeRunes_eq]
  | cons r rs ih =>
    cases h with
    | char c h => exact ih h
    | stray b _ h => exact ih h

-- A byte that starts no encoding starts none when less stands behind it.
theorem Reads.of_append_left {bs : Bytes} {rs rs' : List Rune} (h : Reads bs (rs ++ rs')) :
    Reads (encodeRunes rs) rs := by
  induction rs generalizing bs with
  | nil => exact .nil
  | cons r rs ih =>
    cases h with
    | char c h =>
      rw [encodeRunes_cons]
      exact .char c (ih h)
    | @stray b rest _ hnone h =>
      have hrest : encodeRunes (rs ++ rs') = rest := h.encodeRunes_eq
      have hless : b :: encodeRunes rs <+: b :: rest := by
        rw [← hrest, encodeRunes_append]
        exact List.prefix_append (b :: encodeRunes rs) _
      rw [encodeRunes_cons]
      exact .stray b (fun c hc => hnone c (hc.trans hless)) (ih h)

/-- A part of the runes of a byte string is the reading of a part of the bytes. -/
theorem reading_of_infix {bs : Bytes} {rs : List Rune} (h : rs <:+: decode bs) :
    decode (encodeRunes rs) = rs ∧ encodeRunes rs <:+: bs := by
  obtain ⟨before, after, heq⟩ := h
  have hreads : Reads bs (before ++ rs ++ after) := reads_iff.mpr heq.symm
  constructor
  · exact reads_iff.mp hreads.of_append_left.of_append_right
  · refine ⟨encodeRunes before, encodeRunes after, ?_⟩
    rw [← encodeRunes_append, ← encodeRunes_append, hreads.encodeRunes_eq]

/-! ## Valid byte strings -/

@[simp] theorem encodeChars_append (cs ds : List Char) :
    encodeChars (cs ++ ds) = encodeChars cs ++ encodeChars ds := List.flatMap_append

theorem encodeChars_concat (cs : List Char) (c : Char) :
    encodeChars (cs ++ [c]) = encodeChars cs ++ encodeChar c := by
  rw [encodeChars_append]
  exact congrArg _ (List.append_nil _)

/-- A byte string is valid when it is the encoding of some characters. -/
theorem valid_iff {bs : Bytes} : valid bs = true ↔ ∃ cs, bs = encodeChars cs := by
  constructor
  · intro hvalid
    have hreads := reads_decode bs
    unfold valid at hvalid
    generalize decode bs = rs at hreads hvalid
    induction hreads with
    | nil => exact ⟨[], rfl⟩
    | char c _ ih =>
      rw [List.all_cons, Bool.and_eq_true] at hvalid
      obtain ⟨cs, rfl⟩ := ih hvalid.2
      exact ⟨c :: cs, (encodeChars_cons c cs).symm⟩
    | stray b _ _ _ => simp [Rune.isChar] at hvalid
  · rintro ⟨cs, rfl⟩
    rw [valid, decode_encodeChars, List.all_map, List.all_eq_true]
    exact fun _ _ => rfl

@[simp] theorem chars_encodeChars_append (cs : List Char) (rest : Bytes) :
    chars (encodeChars cs ++ rest) = cs ++ chars rest := by
  induction cs with
  | nil => rfl
  | cons c cs ih =>
    rw [encodeChars_cons, List.append_assoc, chars, decode_encodeChar_append, List.map_cons, ← chars, ih]
    rfl

/-! ## Character boundaries -/

-- An encoding is one ASCII byte, or a byte past the continuation bytes and then these alone.
theorem encodeChar_shape (c : Char) :
    (encodeChar c = [c.toNat.toUInt8] ∧ c.toNat < 0x80) ∨
      ∃ lead tail, encodeChar c = lead :: tail ∧ 0xC0 ≤ lead.toNat ∧
        ∀ b ∈ tail, isContinuation b = true := by
  have hc := toNat_lt_size c
  have hlead : ∀ m, 0xC0 ≤ m → m < 256 → 0xC0 ≤ m.toUInt8.toNat := fun m hm hm' => by
    rw [toNat_toUInt8 hm']
    exact hm
  have hdigits : ∀ ms : List Nat, ∀ b ∈ ms.map fun m => (0x80 + m % 64).toUInt8,
      isContinuation b = true := by
    intro ms b hb
    obtain ⟨m, -, rfl⟩ := List.mem_map.mp hb
    exact isContinuation_toUInt8 (by omega) (by omega)
  unfold encodeChar
  dsimp only
  generalize c.toNat = n at hc ⊢
  split
  next hascii => exact .inl ⟨rfl, hascii⟩
  split
  next => exact .inr ⟨_, _, rfl, hlead _ (by omega) (by omega), hdigits [n]⟩
  split
  next => exact .inr ⟨_, _, rfl, hlead _ (by omega) (by omega), hdigits [n / 64, n]⟩
  next => exact .inr ⟨_, _, rfl, hlead _ (by omega) (by omega), hdigits [n / 4096, n / 64, n]⟩

theorem toNat_of_mem_encodeChar {c : Char} {b : UInt8} (hmem : b ∈ encodeChar c) (hb : b.toNat < 0x80) :
    c.toNat = b.toNat := by
  rcases encodeChar_shape c with ⟨henc, hc⟩ | ⟨lead, tail, henc, hlead, htail⟩
  · rw [henc, List.mem_singleton] at hmem
    rw [hmem, toNat_toUInt8 (by omega)]
  · rw [henc] at hmem
    rcases List.mem_cons.mp hmem with rfl | hmem
    · omega
    · have := isContinuation_iff.mp (htail b hmem)
      omega

theorem isContinuation_of_inside {c : Char} {i : Nat} {b : UInt8} (h : (encodeChar c)[i + 1]? = some b) :
    isContinuation b = true := by
  rcases encodeChar_shape c with ⟨henc, -⟩ | ⟨lead, tail, henc, -, htail⟩
  · rw [henc] at h
    cases h
  · rw [henc, List.getElem?_cons_succ] at h
    exact htail b (List.mem_of_getElem? h)

/-- An offset lies on a boundary when no continuation byte comes next. -/
def isBoundary (bs : Bytes) (offset : Nat) : Bool :=
  offset ≤ bs.length && bs[offset]?.all (!isContinuation ·)

/-- A boundary of a text cuts it between two characters. -/
theorem exists_cut_of_isBoundary {cs : List Char} {a : Nat} (h : isBoundary (encodeChars cs) a = true) :
    ∃ before after, cs = before ++ after ∧ (encodeChars before).length = a := by
  induction cs generalizing a with
  | nil =>
    have ha : a = 0 := by simpa [isBoundary, encodeChars] using h
    exact ⟨[], [], rfl, ha.symm⟩
  | cons c cs ih =>
    rw [isBoundary, encodeChars_cons, Bool.and_eq_true, decide_eq_true_eq, List.length_append] at h
    obtain ⟨hle, hnext⟩ := h
    by_cases hpast : (encodeChar c).length ≤ a
    · rw [List.getElem?_append_right hpast] at hnext
      have hrest : isBoundary (encodeChars cs) (a - (encodeChar c).length) = true := by
        rw [isBoundary, Bool.and_eq_true, decide_eq_true_eq]
        exact ⟨by omega, hnext⟩
      obtain ⟨before, after, rfl, hlength⟩ := ih hrest
      refine ⟨c :: before, after, rfl, ?_⟩
      rw [encodeChars_cons, List.length_append, hlength]
      omega
    · cases a with
      | zero => exact ⟨[], c :: cs, rfl, rfl⟩
      | succ i =>
        -- Inside an encoding only continuation bytes come next.
        have hi : i + 1 < (encodeChar c).length := by omega
        rw [List.getElem?_append_left hi, List.getElem?_eq_getElem hi, Option.all_some,
          isContinuation_of_inside (List.getElem?_eq_getElem hi)] at hnext
        cases hnext

/-! ## Cutting at an ASCII byte -/

theorem encodeChar_of_ascii {c : Char} (h : c.toNat < 0x80) : encodeChar c = [c.toNat.toUInt8] := by
  unfold encodeChar
  dsimp only
  rw [if_pos h]

-- An encoding that starts in one part and ends in the next has a byte of the next behind its first.
theorem reads_append {bs : Bytes} {rs : List Rune} (h : Reads bs rs) {b : UInt8} {rest : Bytes} {rs' : List Rune}
    (hb : isContinuation b = false) (hrest : Reads (b :: rest) rs') : Reads (bs ++ b :: rest) (rs ++ rs') := by
  induction h with
  | nil => exact hrest
  | char c _ ih =>
    rw [List.append_assoc]
    exact .char c ih
  | @stray a before rs hnone _ ih =>
    apply Reads.stray a _ ih
    rintro c ⟨after, henc⟩
    by_cases hlength : (encodeChar c).length ≤ (a :: before).length
    · apply hnone c
      apply List.prefix_of_prefix_length_le ⟨after, henc⟩ _ hlength
      exact ⟨b :: rest, rfl⟩
    · -- The byte after the first part belongs to the encoding, and so does the one before it.
      have hinside : (encodeChar c)[before.length + 1]? = some b := by
        have hlt : before.length + 1 < (encodeChar c).length := by
          rw [List.length_cons] at hlength
          omega
        have hboth : (encodeChar c ++ after)[before.length + 1]? = some b := by
          rw [henc, List.getElem?_cons_succ, List.getElem?_append_right (Nat.le_refl _), Nat.sub_self]
          rfl
        rwa [List.getElem?_append_left hlt] at hboth
      rw [isContinuation_of_inside hinside] at hb
      cases hb

theorem decode_append {b : UInt8} (hb : isContinuation b = false) (bs rest : Bytes) :
    decode (bs ++ b :: rest) = decode bs ++ decode (b :: rest) :=
  reads_iff.mp (reads_append (reads_decode bs) hb (reads_decode (b :: rest)))

/-- A byte string is cut at each of its ASCII characters. -/
theorem exists_cut_of_ascii {c : Char} (hc : c.toNat < 0x80) {bs : Bytes} {cs ds : List Char}
    (h : chars bs = cs ++ c :: ds) :
    ∃ before after, bs = before ++ c.toNat.toUInt8 :: after ∧ chars before = cs ∧ chars after = ds := by
  have hreads := reads_decode bs
  unfold chars at h
  generalize decode bs = rs at hreads h
  induction hreads generalizing cs with
  | nil => cases cs <;> cases h
  | @char d rest rs hrest ih =>
    cases cs with
    | nil =>
      obtain ⟨hd, hds⟩ := List.cons.inj h
      obtain rfl : d = c := hd
      refine ⟨[], rest, ?_, rfl, ?_⟩
      · rw [encodeChar_of_ascii hc]
        rfl
      · rw [chars, reads_iff.mp hrest, hds]
    | cons e cs =>
      obtain ⟨hd, htail⟩ := List.cons.inj h
      obtain rfl : d = e := hd
      obtain ⟨before, after, rfl, hbefore, hafter⟩ := ih htail
      refine ⟨encodeChar d ++ before, after, (List.append_assoc ..).symm, ?_, hafter⟩
      rw [chars, decode_encodeChar_append, List.map_cons, ← chars, hbefore]
      rfl
  | @stray b rest rs hnone _ ih =>
    cases cs with
    | nil =>
      -- A stray byte is shown as a character past the ASCII ones.
      rw [← (List.cons.inj h).1] at hc
      exact absurd hc (show ¬ '�'.toNat < 0x80 by decide)
    | cons e cs =>
      obtain ⟨hd, htail⟩ := List.cons.inj h
      obtain ⟨before, after, rfl, hbefore, hafter⟩ := ih htail
      refine ⟨b :: before, after, rfl, ?_, hafter⟩
      have hstray : Reads (b :: before) (.stray b :: decode before) := by
        refine .stray b (fun c' hstart => hnone c' (hstart.trans ?_)) (reads_decode before)
        exact ⟨_, rfl⟩
      rw [chars, reads_iff.mp hstray, List.map_cons, ← chars, hbefore, hd]

theorem eq_nil_of_chars {bs : Bytes} (h : chars bs = []) : bs = [] := by
  cases bs with
  | nil => rfl
  | cons b bs => exact absurd (List.map_eq_nil_iff.mp h) (decode_ne_nil (List.cons_ne_nil b bs))

theorem decode_append_of_ascii {c : Char} (hc : c.toNat < 0x80) {bs : Bytes} {cs : List Char}
    (h : chars bs = cs ++ [c]) (rest : Bytes) : decode (bs ++ rest) = decode bs ++ decode rest := by
  obtain ⟨before, after, rfl, -, hafter⟩ := exists_cut_of_ascii hc h
  obtain rfl := eq_nil_of_chars hafter
  have hb : isContinuation c.toNat.toUInt8 = false := by
    rw [Bool.eq_false_iff, Ne, isContinuation_iff, toNat_toUInt8 (by omega)]
    omega
  have hlast : ∀ rest, decode (c.toNat.toUInt8 :: rest) = .char c :: decode rest := by
    intro rest
    have hencoded := decode_encodeChar_append c rest
    rwa [encodeChar_of_ascii hc] at hencoded
  rw [List.append_assoc, List.singleton_append, decode_append hb, decode_append hb, hlast, hlast, List.append_assoc]
  rfl

end SolidityAst.Text.Utf8
