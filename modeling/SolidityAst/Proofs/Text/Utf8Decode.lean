import SolidityAst.Proofs.Text.Utf8Order

/-!
The UTF-8 bytes of a text are read back as its characters.

The first byte of a sequence tells its length, so a sequence is read as a whole and what follows it does not
matter.
-/
namespace SolidityAst.Text.Utf8

/-! ## Bytes by their numbers -/

section

variable {a b c d : Nat}

theorem le_toUInt8 {k : UInt8} (ha : a < 256) : k ≤ a.toUInt8 ↔ k.toNat ≤ a := by
  rw [UInt8.le_iff_toNat_le, toNat_toUInt8 ha]

theorem toUInt8_le {k : UInt8} (ha : a < 256) : a.toUInt8 ≤ k ↔ a ≤ k.toNat := by
  rw [UInt8.le_iff_toNat_le, toNat_toUInt8 ha]

theorem toUInt8_eq {k : UInt8} (ha : a < 256) : a.toUInt8 = k ↔ a = k.toNat := by
  rw [← UInt8.toNat_inj, toNat_toUInt8 ha]

theorem isContinuation_toUInt8 (hb : 0x80 ≤ b) (hb' : b ≤ 0xBF) : isContinuation b.toUInt8 = true := by
  have hlow : (0x80 : UInt8) ≤ b.toUInt8 := (le_toUInt8 (by omega)).mpr hb
  have hhigh : b.toUInt8 ≤ (0xBF : UInt8) := (toUInt8_le (by omega)).mpr hb'
  simp [isContinuation, hlow, hhigh]

theorem payload_toUInt8 (hb : b < 256) : payload b.toUInt8 = b % 64 := by
  rw [payload, toNat_toUInt8 hb]

/-! ## Sequences of each length -/

theorem two?_toUInt8 (ha : 0xC2 ≤ a) (ha' : a ≤ 0xDF) (hb : 0x80 ≤ b) (hb' : b ≤ 0xBF) :
    two? a.toUInt8 b.toUInt8 = some (Char.ofNat ((a % 32) * 64 + b % 64)) := by
  have hlow : (0xC2 : UInt8) ≤ a.toUInt8 := (le_toUInt8 (by omega)).mpr ha
  have hhigh : a.toUInt8 ≤ (0xDF : UInt8) := (toUInt8_le (by omega)).mpr ha'
  unfold two?
  rw [if_pos (by simp [hlow, hhigh, isContinuation_toUInt8 hb hb']), toNat_toUInt8 (by omega),
    payload_toUInt8 (by omega)]

theorem two?_eq_none (ha : a < 256) (h : a < 0xC2 ∨ 0xDF < a) (y : UInt8) : two? a.toUInt8 y = none := by
  unfold two?
  rw [if_neg]
  simp only [Bool.and_eq_true, decide_eq_true_eq, le_toUInt8 ha, toUInt8_le ha]
  rintro ⟨⟨hlow, hhigh⟩, -⟩
  have hlow' : 0xC2 ≤ a := hlow
  have hhigh' : a ≤ 0xDF := hhigh
  omega

theorem three?_toUInt8 (ha : 0xE0 ≤ a) (ha' : a ≤ 0xEF) (hb : 0x80 ≤ b) (hb' : b ≤ 0xBF)
    (hc : 0x80 ≤ c) (hc' : c ≤ 0xBF) (hlong : a = 0xE0 → 0xA0 ≤ b) (hhalf : a = 0xED → b ≤ 0x9F) :
    three? a.toUInt8 b.toUInt8 c.toUInt8 =
      some (Char.ofNat ((a % 16) * 4096 + b % 64 * 64 + c % 64)) := by
  have hlow : (0xE0 : UInt8) ≤ a.toUInt8 := (le_toUInt8 (by omega)).mpr ha
  have hhigh : a.toUInt8 ≤ (0xEF : UInt8) := (toUInt8_le (by omega)).mpr ha'
  have hlong' : a.toUInt8 = (0xE0 : UInt8) → (0xA0 : UInt8) ≤ b.toUInt8 := fun he =>
    (le_toUInt8 (by omega)).mpr (hlong ((toUInt8_eq (by omega)).mp he))
  have hhalf' : a.toUInt8 = (0xED : UInt8) → b.toUInt8 ≤ (0x9F : UInt8) := fun he =>
    (toUInt8_le (by omega)).mpr (hhalf ((toUInt8_eq (by omega)).mp he))
  have hcond : ((0xE0 : UInt8) ≤ a.toUInt8 && a.toUInt8 ≤ (0xEF : UInt8) && isContinuation b.toUInt8
      && isContinuation c.toUInt8 && (a.toUInt8 != (0xE0 : UInt8) || (0xA0 : UInt8) ≤ b.toUInt8)
      && (a.toUInt8 != (0xED : UInt8) || b.toUInt8 ≤ (0x9F : UInt8))) = true := by
    simp only [isContinuation_toUInt8 hb hb', isContinuation_toUInt8 hc hc', hlow, hhigh, decide_true,
      Bool.true_and, Bool.and_eq_true, Bool.or_eq_true, bne_iff_ne, decide_eq_true_eq]
    exact ⟨Decidable.not_or_of_imp hlong', Decidable.not_or_of_imp hhalf'⟩
  unfold three?
  rw [if_pos hcond, toNat_toUInt8 (by omega), payload_toUInt8 (by omega), payload_toUInt8 (by omega)]

theorem three?_eq_none (ha : a < 256) (h : a < 0xE0 ∨ 0xEF < a) (y z : UInt8) :
    three? a.toUInt8 y z = none := by
  unfold three?
  rw [if_neg]
  simp only [Bool.and_eq_true, decide_eq_true_eq, le_toUInt8 ha, toUInt8_le ha]
  rintro ⟨⟨⟨⟨⟨hlow, hhigh⟩, -⟩, -⟩, -⟩, -⟩
  have hlow' : 0xE0 ≤ a := hlow
  have hhigh' : a ≤ 0xEF := hhigh
  omega

theorem four?_toUInt8 (ha : 0xF0 ≤ a) (ha' : a ≤ 0xF4) (hb : 0x80 ≤ b) (hb' : b ≤ 0xBF)
    (hc : 0x80 ≤ c) (hc' : c ≤ 0xBF) (hd : 0x80 ≤ d) (hd' : d ≤ 0xBF) (hlong : a = 0xF0 → 0x90 ≤ b)
    (hlast : a = 0xF4 → b ≤ 0x8F) :
    four? a.toUInt8 b.toUInt8 c.toUInt8 d.toUInt8 =
      some (Char.ofNat ((a % 8) * 262144 + b % 64 * 4096 + c % 64 * 64 + d % 64)) := by
  have hlow : (0xF0 : UInt8) ≤ a.toUInt8 := (le_toUInt8 (by omega)).mpr ha
  have hhigh : a.toUInt8 ≤ (0xF4 : UInt8) := (toUInt8_le (by omega)).mpr ha'
  have hlong' : a.toUInt8 = (0xF0 : UInt8) → (0x90 : UInt8) ≤ b.toUInt8 := fun he =>
    (le_toUInt8 (by omega)).mpr (hlong ((toUInt8_eq (by omega)).mp he))
  have hlast' : a.toUInt8 = (0xF4 : UInt8) → b.toUInt8 ≤ (0x8F : UInt8) := fun he =>
    (toUInt8_le (by omega)).mpr (hlast ((toUInt8_eq (by omega)).mp he))
  have hcond : ((0xF0 : UInt8) ≤ a.toUInt8 && a.toUInt8 ≤ (0xF4 : UInt8) && isContinuation b.toUInt8
      && isContinuation c.toUInt8 && isContinuation d.toUInt8
      && (a.toUInt8 != (0xF0 : UInt8) || (0x90 : UInt8) ≤ b.toUInt8)
      && (a.toUInt8 != (0xF4 : UInt8) || b.toUInt8 ≤ (0x8F : UInt8))) = true := by
    simp only [isContinuation_toUInt8 hb hb', isContinuation_toUInt8 hc hc',
      isContinuation_toUInt8 hd hd', hlow, hhigh, decide_true, Bool.true_and, Bool.and_eq_true,
      Bool.or_eq_true, bne_iff_ne, decide_eq_true_eq]
    exact ⟨Decidable.not_or_of_imp hlong', Decidable.not_or_of_imp hlast'⟩
  unfold four?
  rw [if_pos hcond, toNat_toUInt8 (by omega), payload_toUInt8 (by omega), payload_toUInt8 (by omega),
    payload_toUInt8 (by omega)]

theorem four?_eq_none (ha : a < 0xF0) (y z w : UInt8) : four? a.toUInt8 y z w = none := by
  unfold four?
  rw [if_neg]
  simp only [Bool.and_eq_true, decide_eq_true_eq, le_toUInt8 (show a < 256 by omega)]
  rintro ⟨⟨⟨⟨⟨⟨hlow, -⟩, -⟩, -⟩, -⟩, -⟩, -⟩
  have hlow' : 0xF0 ≤ a := hlow
  omega

-- No longer sequence starts with an ASCII byte, whatever follows.
theorem first_ascii (ha : a < 0x80) (rest : Bytes) :
    first a.toUInt8 rest = (.char (Char.ofNat a), 0) := by
  have hone : one a.toUInt8 = .char (Char.ofNat a) := by
    unfold one
    have hlt : a.toUInt8 < (0x80 : UInt8) := by
      rw [UInt8.lt_iff_toNat_lt, toNat_toUInt8 (by omega)]
      exact ha
    rw [if_pos hlt, toNat_toUInt8 (by omega)]
  match rest with
  | [] => rw [first, hone]
  | [y] => rw [first, two?_eq_none (by omega) (by omega), hone]
  | [y, z] => rw [first, two?_eq_none (by omega) (by omega), three?_eq_none (by omega) (by omega), hone]
  | y :: z :: w :: _ =>
    rw [first, two?_eq_none (by omega) (by omega), three?_eq_none (by omega) (by omega),
      four?_eq_none (by omega), hone]

end

/-! ## Whole texts -/

theorem decodeAfter_encodeChar (c : Char) (rest : Bytes) :
    decodeAfter 0 (encodeChar c ++ rest) = .char c :: decodeAfter 0 rest := by
  have hc := toNat_lt_size c
  have hself : ∀ m, m = c.toNat → Char.ofNat m = c := fun m hm => by rw [hm, Char.ofNat_toNat]
  have hhalf := toNat_not_surrogate c
  unfold encodeChar
  dsimp only
  generalize c.toNat = n at hc hself hhalf ⊢
  by_cases h1 : n < 0x80
  · rw [if_pos h1, List.cons_append, List.nil_append, decodeAfter, first_ascii h1, hself n rfl]
  rw [if_neg h1]
  by_cases h2 : n < 0x800
  · rw [if_pos h2]
    have hseq := two?_toUInt8 (a := 0xC0 + n / 64) (b := 0x80 + n % 64) (by omega) (by omega)
      (by omega) (by omega)
    rw [hself _ (by omega)] at hseq
    simp only [List.cons_append, List.nil_append, decodeAfter, first, hseq]
  rw [if_neg h2]
  by_cases h3 : n < 0x10000
  · rw [if_pos h3]
    have hno : ∀ y, two? (0xE0 + n / 4096).toUInt8 y = none := two?_eq_none (by omega) (by omega)
    have hseq := three?_toUInt8 (a := 0xE0 + n / 4096) (b := 0x80 + n / 64 % 64) (c := 0x80 + n % 64)
      (by omega) (by omega) (by omega) (by omega) (by omega) (by omega) (by omega) (by omega)
    rw [hself _ (by omega)] at hseq
    simp only [List.cons_append, List.nil_append, decodeAfter, first, hno, hseq]
  · rw [if_neg h3]
    have hno : ∀ y, two? (0xF0 + n / 262144).toUInt8 y = none := two?_eq_none (by omega) (by omega)
    have hno' : ∀ y z, three? (0xF0 + n / 262144).toUInt8 y z = none :=
      three?_eq_none (by omega) (by omega)
    have hseq := four?_toUInt8 (a := 0xF0 + n / 262144) (b := 0x80 + n / 4096 % 64)
      (c := 0x80 + n / 64 % 64) (d := 0x80 + n % 64) (by omega) (by omega) (by omega) (by omega)
      (by omega) (by omega) (by omega) (by omega) (by omega) (by omega)
    rw [hself _ (by omega)] at hseq
    simp only [List.cons_append, List.nil_append, decodeAfter, first, hno, hno', hseq]

@[simp] theorem encodeChars_cons (c : Char) (cs : List Char) :
    encodeChars (c :: cs) = encodeChar c ++ encodeChars cs := List.flatMap_cons

@[simp] theorem decode_encodeChars (cs : List Char) : decode (encodeChars cs) = cs.map .char := by
  induction cs with
  | nil => rfl
  | cons c cs ih =>
    rw [encodeChars_cons, decode, decodeAfter_encodeChar, ← decode, ih, List.map_cons]

/-- A text is read back from its bytes. -/
@[simp] theorem chars_encode (s : String) : chars (encode s) = s.toList := by
  have hchar : (Rune.toChar ∘ Rune.char) = id := rfl
  simp [chars, encode, hchar]

end SolidityAst.Text.Utf8
