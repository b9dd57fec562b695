import SolidityAst.Text.Utf8

/-!
The order of strings is the order of their bytes.

Strings are compared character by character.  Their UTF-8 bytes, compared byte by byte, come in the same
order: of two characters the smaller has the smaller first byte where the bytes differ first, whatever
follows.
-/
namespace SolidityAst.Text.Utf8

/-! ## Bytes of a character -/

theorem toNat_toUInt8 {n : Nat} (h : n < 256) : n.toUInt8.toNat = n := by
  rw [Nat.toUInt8, UInt8.toNat_ofNat', Nat.mod_eq_of_lt h]

-- Bytes are compared by their numbers.
theorem cons_lt_cons {a b : Nat} (ha : a < 256) (hb : b < 256) {as bs : Bytes}
    (h : a < b ∨ (a = b ∧ as < bs)) : a.toUInt8 :: as < b.toUInt8 :: bs := by
  rw [List.cons_lt_cons_iff]
  rcases h with hlt | ⟨rfl, hrest⟩
  · left
    rw [UInt8.lt_iff_toNat_lt, toNat_toUInt8 ha, toNat_toUInt8 hb]
    exact hlt
  · exact .inr ⟨rfl, hrest⟩

theorem toNat_lt_size (c : Char) : c.toNat < 0x110000 := by
  have hvalid := c.valid
  have hnat : c.toNat = c.val.toNat := rfl
  rw [hnat]
  rcases hvalid with h | ⟨-, h⟩
  · have : c.val.toNat < 0xd800 := h
    omega
  · exact h

theorem toNat_not_surrogate (c : Char) : ¬ (0xD800 ≤ c.toNat ∧ c.toNat < 0xE000) := by
  have hvalid := c.valid
  have hnat : c.toNat = c.val.toNat := rfl
  rcases hvalid with h | ⟨h, -⟩
  · have : c.val.toNat < 0xd800 := h
    omega
  · have : 0xdfff < c.val.toNat := h
    omega

theorem encodeChar_ne_nil (c : Char) : encodeChar c ≠ [] := by
  unfold encodeChar
  dsimp only
  split
  · simp
  split
  · simp
  split <;> simp

-- The bytes after the first are digits to base 64.  Numbers that agree above so many digits are in the
-- order of those digits.
theorem digit_lt {n m : Nat} (hlt : n < m) (hsame : n / 64 = m / 64) (x y : Bytes) :
    (0x80 + n % 64).toUInt8 :: x < (0x80 + m % 64).toUInt8 :: y :=
  cons_lt_cons (by omega) (by omega) (.inl (by omega))

theorem two_digits_lt {n m : Nat} (hlt : n < m) (hsame : n / 4096 = m / 4096) (x y : Bytes) :
    (0x80 + n / 64 % 64).toUInt8 :: (0x80 + n % 64).toUInt8 :: x <
      (0x80 + m / 64 % 64).toUInt8 :: (0x80 + m % 64).toUInt8 :: y := by
  by_cases hfirst : n / 64 < m / 64
  · exact digit_lt hfirst (by omega) _ _
  · have heq : n / 64 = m / 64 := by omega
    exact cons_lt_cons (by omega) (by omega) (.inr ⟨by rw [heq], digit_lt hlt heq x y⟩)

theorem three_digits_lt {n m : Nat} (hlt : n < m) (hsame : n / 262144 = m / 262144) (x y : Bytes) :
    (0x80 + n / 4096 % 64).toUInt8 :: (0x80 + n / 64 % 64).toUInt8 :: (0x80 + n % 64).toUInt8 :: x <
      (0x80 + m / 4096 % 64).toUInt8 :: (0x80 + m / 64 % 64).toUInt8 :: (0x80 + m % 64).toUInt8 :: y := by
  by_cases hfirst : n / 4096 < m / 4096
  · exact digit_lt hfirst (by omega) _ _
  · have heq : n / 4096 = m / 4096 := by omega
    exact cons_lt_cons (by omega) (by omega) (.inr ⟨by rw [heq], two_digits_lt hlt heq x y⟩)

/-- The bytes of a smaller character come first, whatever follows. -/
theorem encodeChar_append_lt {c d : Char} (h : c < d) (x y : Bytes) :
    encodeChar c ++ x < encodeChar d ++ y := by
  have hlt : c.toNat < d.toNat := h
  have hc := toNat_lt_size c
  have hd := toNat_lt_size d
  unfold encodeChar
  dsimp only
  generalize c.toNat = n at hlt hc ⊢
  generalize d.toNat = m at hlt hd ⊢
  -- A longer sequence starts with a greater byte.  In sequences of one length the first bytes decide, or
  -- they agree and the digits do.
  by_cases hn1 : n < 0x80
  · rw [if_pos hn1]
    by_cases hm1 : m < 0x80
    · rw [if_pos hm1]
      exact cons_lt_cons (by omega) (by omega) (.inl hlt)
    rw [if_neg hm1]
    by_cases hm2 : m < 0x800
    · rw [if_pos hm2]
      exact cons_lt_cons (by omega) (by omega) (.inl (by omega))
    rw [if_neg hm2]
    by_cases hm3 : m < 0x10000
    · rw [if_pos hm3]
      exact cons_lt_cons (by omega) (by omega) (.inl (by omega))
    rw [if_neg hm3]
    exact cons_lt_cons (by omega) (by omega) (.inl (by omega))
  rw [if_neg hn1, if_neg (by omega : ¬ m < 0x80)]
  by_cases hn2 : n < 0x800
  · rw [if_pos hn2]
    by_cases hm2 : m < 0x800
    · rw [if_pos hm2]
      refine cons_lt_cons (by omega) (by omega) ?_
      by_cases hfirst : n / 64 < m / 64
      · exact .inl (by omega)
      · exact .inr ⟨by omega, digit_lt hlt (by omega) x y⟩
    rw [if_neg hm2]
    by_cases hm3 : m < 0x10000
    · rw [if_pos hm3]
      exact cons_lt_cons (by omega) (by omega) (.inl (by omega))
    rw [if_neg hm3]
    exact cons_lt_cons (by omega) (by omega) (.inl (by omega))
  rw [if_neg hn2, if_neg (by omega : ¬ m < 0x800)]
  by_cases hn3 : n < 0x10000
  · rw [if_pos hn3]
    by_cases hm3 : m < 0x10000
    · rw [if_pos hm3]
      refine cons_lt_cons (by omega) (by omega) ?_
      by_cases hfirst : n / 4096 < m / 4096
      · exact .inl (by omega)
      · exact .inr ⟨by omega, two_digits_lt hlt (by omega) x y⟩
    rw [if_neg hm3]
    exact cons_lt_cons (by omega) (by omega) (.inl (by omega))
  rw [if_neg hn3, if_neg (by omega : ¬ m < 0x10000)]
  refine cons_lt_cons (by omega) (by omega) ?_
  by_cases hfirst : n / 262144 < m / 262144
  · exact .inl (by omega)
  · exact .inr ⟨by omega, three_digits_lt hlt (by omega) x y⟩

/-! ## Bytes of a string -/

theorem append_lt_append_left (p : Bytes) {x y : Bytes} (h : x < y) : p ++ x < p ++ y := by
  induction p with
  | nil => exact h
  | cons b p ih =>
    rw [List.cons_append, List.cons_append, List.cons_lt_cons_iff]
    exact .inr ⟨rfl, ih⟩

theorem encodeChars_lt {cs ds : List Char} (h : cs < ds) : encodeChars cs < encodeChars ds := by
  induction cs generalizing ds with
  | nil =>
    cases ds with
    | nil => exact absurd h (List.lt_irrefl _)
    | cons d ds =>
      obtain ⟨b, bs, hb⟩ := List.exists_cons_of_ne_nil (encodeChar_ne_nil d)
      have hds : encodeChars (d :: ds) = b :: (bs ++ encodeChars ds) := by
        rw [encodeChars, List.flatMap_cons, hb, List.cons_append, encodeChars]
      rw [hds]
      exact List.nil_lt_cons _ _
  | cons c cs ih =>
    cases ds with
    | nil => exact absurd h (List.not_lt_nil _)
    | cons d ds =>
      have hsplit : ∀ (e : Char) (es : List Char),
          encodeChars (e :: es) = encodeChar e ++ encodeChars es := fun e es => List.flatMap_cons
      rw [hsplit, hsplit]
      rcases List.cons_lt_cons_iff.mp h with hlt | ⟨rfl, hrest⟩
      · exact encodeChar_append_lt hlt _ _
      · exact append_lt_append_left _ (ih hrest)

/-- A smaller string has smaller bytes. -/
theorem encode_lt {s t : String} (h : s < t) : encode s < encode t :=
  encodeChars_lt h

end SolidityAst.Text.Utf8
