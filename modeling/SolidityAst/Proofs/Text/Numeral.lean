import SolidityAst.Text.Numeral

/-!
Numerals, read as 64-bit integers.

A numeral is one digit or more behind a sign or none.  However long it is, it is read as its value or, when that is no
64-bit integer, as the bound on its side.  Any other text is malformed, unless it starts with a numeral whose digits
alone are too much for 64 bits: then reading ends before it comes to what is wrong.
-/
namespace SolidityAst.Text.Numeral

theorem toNat_of_isDigit {c : Char} (h : isDigit c = true) : 48 ≤ c.toNat ∧ c.toNat ≤ 57 := by
  simp only [isDigit, Bool.and_eq_true, decide_eq_true_eq] at h
  exact h

theorem digit?_of_isDigit {c : Char} (h : isDigit c = true) : digit? c = some (c.toNat - '0'.toNat) := by
  rw [digit?, if_pos h]

theorem valueFrom_cons (n : Nat) (c : Char) (cs : List Char) :
    valueFrom n (c :: cs) = valueFrom (n * 10 + (c.toNat - '0'.toNat)) cs := by
  rw [valueFrom, List.foldl_cons, valueFrom]

theorem le_valueFrom (n : Nat) (cs : List Char) : n ≤ valueFrom n cs := by
  induction cs generalizing n with
  | nil => exact Nat.le_refl n
  | cons c cs ih =>
    have hrest := ih (n * 10 + (c.toNat - '0'.toNat))
    rw [valueFrom_cons]
    omega

-- Reading stops at the digit with which the value gets too large, and further digits only make it larger.
theorem digits_append {cs : List Char} (h : ∀ c ∈ cs, isDigit c = true) {n : Nat} (hn : n ≤ maxUnsigned)
    (rest : List Char) :
    digits 10 n (cs ++ rest) =
      if valueFrom n cs ≤ maxUnsigned then digits 10 (valueFrom n cs) rest else .outOfRange maxUnsigned := by
  induction cs generalizing n with
  | nil =>
    rw [if_pos (show valueFrom n [] ≤ maxUnsigned from hn)]
    rfl
  | cons c cs ih =>
    have hc := h c List.mem_cons_self
    have hdigit := toNat_of_isDigit hc
    have hzero : '0'.toNat = 48 := rfl
    have hlarger := le_valueFrom (n * 10 + (c.toNat - '0'.toNat)) cs
    rw [List.cons_append, digits, digit?_of_isDigit hc]
    dsimp only
    rw [if_neg (by omega), valueFrom_cons]
    by_cases hfits : maxUnsigned < n * 10 + (c.toNat - '0'.toNat)
    · rw [if_pos hfits, if_neg (by omega)]
    · rw [if_neg hfits]
      exact ih (fun d hd => h d (List.mem_cons_of_mem c hd)) (by omega)

-- Letters are digits of larger bases only.
theorem digits_of_not_isDigit {c : Char} (h : isDigit c = false) (n : Nat) (cs : List Char) :
    digits 10 n (c :: cs) = .malformed := by
  unfold digits digit?
  simp only [h, Bool.false_eq_true, if_false]
  split
  · rfl
  · rename_i d hd
    rw [if_pos]
    split at hd
    · cases hd
      omega
    · split at hd
      · cases hd
        omega
      · cases hd

/-! ## Signs -/

/-- A text is a numeral of an integer: one digit or more behind a sign or none. -/
inductive Denotes : List Char → Int → Prop
  | bare {ds : List Char} (hne : ds ≠ []) (hdigits : ∀ c ∈ ds, isDigit c = true) : Denotes ds (valueFrom 0 ds)
  | plus {ds : List Char} (hne : ds ≠ []) (hdigits : ∀ c ∈ ds, isDigit c = true) :
      Denotes ('+' :: ds) (valueFrom 0 ds)
  | minus {ds : List Char} (hne : ds ≠ []) (hdigits : ∀ c ∈ ds, isDigit c = true) :
      Denotes ('-' :: ds) (-(valueFrom 0 ds : Int))

/-- Whether a text starts with a minus sign. -/
def isNegative (cs : List Char) : Bool := cs.head? == some '-'

/-- A text without the sign that it starts with. -/
def unsignedPart : List Char → List Char
  | [] => []
  | c :: cs => if c = '-' ∨ c = '+' then cs else c :: cs

/-- A magnitude with its sign. -/
def signedValue (negative : Bool) (n : Nat) : Int := if negative then -(n : Int) else n

section

variable {cs ds back : List Char} {n : Int}

theorem signed_eq (magnitude : List Char → Reading Nat) (cs : List Char) :
    signed magnitude cs = withSign (isNegative cs) (magnitude (unsignedPart cs)) := by
  cases cs with
  | nil => rfl
  | cons c cs =>
    by_cases hminus : c = '-'
    · subst hminus
      rfl
    by_cases hplus : c = '+'
    · subst hplus
      rfl
    · have hnegative : isNegative (c :: cs) = false := by simp [isNegative, hminus]
      rw [hnegative, unsignedPart, if_neg (by simp [hminus, hplus])]
      simp [signed, hminus, hplus]

theorem ne_sign_of_isDigit {c : Char} (h : isDigit c = true) : ¬ (c = '-' ∨ c = '+') := by
  rintro (rfl | rfl) <;> exact absurd h (by decide)

theorem unsignedPart_of_digits (h : ∀ c ∈ ds, isDigit c = true) : unsignedPart ds = ds := by
  cases ds with
  | nil => rfl
  | cons c ds => rw [unsignedPart, if_neg (ne_sign_of_isDigit (h c List.mem_cons_self))]

theorem isNegative_of_digits (h : ∀ c ∈ ds, isDigit c = true) : isNegative ds = false := by
  cases ds with
  | nil => rfl
  | cons c ds =>
    have hc := ne_sign_of_isDigit (h c List.mem_cons_self)
    simp only [isNegative, List.head?_cons, beq_eq_false_iff_ne, ne_eq, Option.some.injEq]
    exact fun hminus => hc (.inl hminus)

theorem denotes_iff : Denotes cs n ↔ unsignedPart cs ≠ [] ∧ (∀ c ∈ unsignedPart cs, isDigit c = true) ∧
    n = signedValue (isNegative cs) (valueFrom 0 (unsignedPart cs)) := by
  constructor
  · intro h
    cases h with
    | bare hne hdigits =>
      rw [unsignedPart_of_digits hdigits, isNegative_of_digits hdigits]
      exact ⟨hne, hdigits, rfl⟩
    | plus hne hdigits => exact ⟨hne, hdigits, rfl⟩
    | minus hne hdigits => exact ⟨hne, hdigits, rfl⟩
  · rintro ⟨hne, hdigits, rfl⟩
    cases cs with
    | nil => exact absurd rfl hne
    | cons c cs =>
      by_cases hminus : c = '-'
      · subst hminus
        exact .minus hne hdigits
      by_cases hplus : c = '+'
      · subst hplus
        exact .plus hne hdigits
      · rw [unsignedPart, if_neg (by simp [hminus, hplus])] at hne hdigits ⊢
        rw [isNegative_of_digits hdigits]
        exact .bare hne hdigits

theorem Denotes.ne_nil (h : Denotes cs n) : cs ≠ [] := by
  rintro rfl
  exact (denotes_iff.mp h).1 rfl

theorem unsignedPart_append (hne : cs ≠ []) (back : List Char) :
    unsignedPart (cs ++ back) = unsignedPart cs ++ back := by
  obtain ⟨c, cs, rfl⟩ := List.exists_cons_of_ne_nil hne
  rw [List.cons_append, unsignedPart, unsignedPart]
  split <;> rfl

theorem isNegative_append (hne : cs ≠ []) (back : List Char) : isNegative (cs ++ back) = isNegative cs := by
  obtain ⟨c, cs, rfl⟩ := List.exists_cons_of_ne_nil hne
  rfl

-- The sign goes with the digits before `back`.
theorem exists_front_of_unsignedPart (hds : ds ≠ []) (h : unsignedPart cs = ds ++ back)
    (hdigits : ∀ c ∈ ds, isDigit c = true) :
    ∃ front, cs = front ++ back ∧ Denotes front (signedValue (isNegative cs) (valueFrom 0 ds)) := by
  cases cs with
  | nil =>
    rw [unsignedPart] at h
    exact absurd (List.append_eq_nil_iff.mp h.symm).1 hds
  | cons c cs =>
    by_cases hsign : c = '-' ∨ c = '+'
    · rw [unsignedPart, if_pos hsign] at h
      refine ⟨c :: ds, by rw [h, List.cons_append], ?_⟩
      rcases hsign with rfl | rfl
      · exact .minus hds hdigits
      · exact .plus hds hdigits
    · rw [unsignedPart, if_neg hsign] at h
      refine ⟨ds, h, ?_⟩
      rw [h, isNegative_append hds, isNegative_of_digits hdigits]
      exact .bare hds hdigits

/-! ## Readings -/

/-- An integer as a reading: itself, or the bound on its side. -/
def nearest (n : Int) : Reading Int :=
  if n < Word.least then .outOfRange Word.least
  else if Word.greatest < n then .outOfRange Word.greatest
  else .value n

theorem nearestOr_nearest (d n : Int) : (nearest n).nearestOr d = max Word.least (min n Word.greatest) := by
  unfold nearest
  dsimp only [Word.least, Word.greatest]
  split
  · rw [Reading.nearestOr]
    omega
  · split
    · rw [Reading.nearestOr]
      omega
    · rw [Reading.nearestOr]
      omega

theorem nearest_eq_value_iff {m : Int} :
    nearest n = .value m ↔ n = m ∧ Word.least ≤ n ∧ n ≤ Word.greatest := by
  unfold nearest
  split
  · exact iff_of_false (by simp) (by omega)
  · split
    · exact iff_of_false (by simp) (by omega)
    · rw [Reading.value.injEq]
      omega

theorem bounded_eq_nearest (negative : Bool) (n : Nat) :
    withSign.bounded negative n = nearest (signedValue negative n) := by
  unfold withSign.bounded nearest signedValue
  dsimp only [Word.half, Word.least, Word.greatest]
  cases negative with
  | true =>
    simp only [if_true]
    by_cases hlarge : 9223372036854775808 < n
    · rw [if_pos hlarge, if_pos (by omega)]
    · rw [if_neg hlarge, if_neg (by omega), if_neg (by omega)]
  | false =>
    simp only [Bool.false_eq_true, if_false]
    by_cases hlarge : 9223372036854775808 ≤ n
    · rw [if_pos hlarge, if_neg (by omega), if_pos (by omega)]
    · rw [if_neg hlarge, if_neg (by omega), if_neg (by omega)]

-- Of a magnitude past the bounds only the sign counts.
theorem nearest_of_half_lt {negative : Bool} {n m : Nat} (hn : Word.half < n) (hm : Word.half < m) :
    nearest (signedValue negative n) = nearest (signedValue negative m) := by
  unfold nearest signedValue
  dsimp only [Word.half, Word.least, Word.greatest] at hn hm ⊢
  cases negative with
  | true =>
    simp only [if_true]
    rw [if_pos (by omega), if_pos (by omega)]
  | false =>
    simp only [Bool.false_eq_true, if_false]
    rw [if_neg (by omega), if_pos (by omega), if_neg (by omega), if_pos (by omega)]

theorem natAbs_signedValue (negative : Bool) (n : Nat) : (signedValue negative n).natAbs = n := by
  cases negative <;> simp [signedValue]

/-- A text starts with a numeral of a magnitude that is more than 64 bits hold. -/
def Overflows (cs : List Char) : Prop :=
  ∃ front back n, cs = front ++ back ∧ Denotes front n ∧ Word.size ≤ n.natAbs

/-- A numeral is read as its value or the bound on its side, and so is whatever starts with one that is too
large for 64 bits. -/
theorem Denotes.signedIn_append (h : Denotes cs n) (hback : back = [] ∨ Word.size ≤ n.natAbs) :
    signedIn 10 (cs ++ back) = nearest n := by
  have hne := h.ne_nil
  obtain ⟨hdigits_ne, hdigits, rfl⟩ := denotes_iff.mp h
  have hunsigned : unsignedPart cs ++ back ≠ [] := by simp [hdigits_ne]
  rw [natAbs_signedValue] at hback
  rw [signedIn, signed_eq, unsignedPart_append hne, isNegative_append hne, unsignedIn,
    if_neg (by simpa using hunsigned), digits_append hdigits (Nat.zero_le maxUnsigned)]
  by_cases hfits : valueFrom 0 (unsignedPart cs) ≤ maxUnsigned
  · have hback' : back = [] := by
      refine hback.resolve_right fun hlarge => ?_
      dsimp only [maxUnsigned, Word.size] at hfits hlarge
      omega
    rw [if_pos hfits, hback', digits, withSign, bounded_eq_nearest]
  · rw [if_neg hfits, withSign, bounded_eq_nearest]
    dsimp only [maxUnsigned, Word.size] at hfits ⊢
    exact nearest_of_half_lt (by decide) (by dsimp only [Word.half]; omega)

theorem signedIn_eq_malformed (h : ∀ n, ¬ Denotes cs n) (hoverflow : ¬ Overflows cs) :
    signedIn 10 cs = .malformed := by
  rw [signedIn, signed_eq, unsignedIn]
  by_cases hempty : unsignedPart cs = []
  · rw [if_pos (by simp [hempty]), withSign]
  rw [if_neg (by simpa using hempty)]
  have hsplit : unsignedPart cs = (unsignedPart cs).takeWhile isDigit ++ (unsignedPart cs).dropWhile isDigit :=
    List.takeWhile_append_dropWhile.symm
  have hdigits : ∀ c ∈ (unsignedPart cs).takeWhile isDigit, isDigit c = true :=
    List.all_eq_true.mp List.all_takeWhile
  cases hrest : (unsignedPart cs).dropWhile isDigit with
  | nil =>
    rw [hrest, List.append_nil] at hsplit
    rw [← hsplit] at hdigits
    exact absurd (denotes_iff.mpr ⟨hempty, hdigits, rfl⟩) (h _)
  | cons c rest =>
    have hc : isDigit c = false := by
      have := List.head?_dropWhile_not isDigit (unsignedPart cs)
      rw [hrest] at this
      simpa using this
    rw [hrest] at hsplit
    rw [hsplit, digits_append hdigits (Nat.zero_le maxUnsigned)]
    by_cases hfits : valueFrom 0 ((unsignedPart cs).takeWhile isDigit) ≤ maxUnsigned
    · rw [if_pos hfits, digits_of_not_isDigit hc, withSign]
    · exfalso
      have hds : (unsignedPart cs).takeWhile isDigit ≠ [] := by
        intro hnil
        rw [hnil] at hfits
        exact hfits (by decide)
      obtain ⟨front, hcs, hfront⟩ := exists_front_of_unsignedPart hds hsplit hdigits
      refine hoverflow ⟨front, _, _, hcs, hfront, ?_⟩
      rw [natAbs_signedValue]
      dsimp only [maxUnsigned, Word.size] at hfits ⊢
      omega

theorem Denotes.decimal_eq {s : String} (h : Denotes s.toList n) : decimal s = nearest n := by
  have hread := h.signedIn_append (.inl rfl)
  rwa [List.append_nil] at hread

/-- What is read as a value is the numeral of it, and it is a 64-bit integer. -/
theorem decimal_eq_value_iff {s : String} :
    decimal s = .value n ↔ Denotes s.toList n ∧ Word.least ≤ n ∧ n ≤ Word.greatest := by
  constructor
  · intro h
    by_cases hdenotes : ∃ m, Denotes s.toList m
    · obtain ⟨m, hm⟩ := hdenotes
      rw [hm.decimal_eq, nearest_eq_value_iff] at h
      obtain ⟨rfl, hrange⟩ := h
      exact ⟨hm, hrange⟩
    · exfalso
      by_cases hoverflow : Overflows s.toList
      · obtain ⟨front, back, m, hs, hfront, hlarge⟩ := hoverflow
        rw [decimal, hs, hfront.signedIn_append (.inr hlarge), nearest_eq_value_iff] at h
        dsimp only [Word.size, Word.least, Word.greatest] at hlarge h
        omega
      · rw [decimal, signedIn_eq_malformed (not_exists.mp hdenotes) hoverflow] at h
        cases h
  · rintro ⟨h, hrange⟩
    rw [h.decimal_eq, nearest_eq_value_iff]
    exact ⟨rfl, hrange⟩

theorem valueFrom_toDigits (n : Nat) : valueFrom 0 (Nat.toDigits 10 n) = n := by
  have hfold : valueFrom 0 (Nat.toDigits 10 n) = Nat.ofDigitChars 10 (Nat.toDigits 10 n) 0 := by
    rw [Nat.ofDigitChars_eq_foldl, valueFrom]
    simp only [Nat.mul_comm]
  rw [hfold, Nat.ofDigitChars_ten_toDigits]

theorem isDigit_of_mem_toDigits {c : Char} {n : Nat} (h : c ∈ Nat.toDigits 10 n) : isDigit c = true :=
  Nat.isDigit_of_mem_toDigits (by decide) (by decide) h

theorem toList_toString_natCast (n : Nat) : (toString (n : Int)).toList = Nat.toDigits 10 n := by
  rw [← Nat.toList_repr]
  rfl

theorem toList_toString_negSucc (n : Nat) : (toString (Int.negSucc n)).toList = '-' :: Nat.toDigits 10 (n + 1) := by
  rw [← Nat.toList_repr]
  exact String.toList_append

/-- An integer is printed as a numeral of it. -/
theorem denotes_toString (n : Int) : Denotes (toString n).toList n := by
  cases n with
  | ofNat n =>
    have hdigits : Denotes (Nat.toDigits 10 n) (valueFrom 0 (Nat.toDigits 10 n)) :=
      .bare Nat.toDigits_ne_nil fun _ => isDigit_of_mem_toDigits
    rwa [valueFrom_toDigits, ← toList_toString_natCast] at hdigits
  | negSucc n =>
    have hdigits : Denotes ('-' :: Nat.toDigits 10 (n + 1)) (-(valueFrom 0 (Nat.toDigits 10 (n + 1)) : Int)) :=
      .minus Nat.toDigits_ne_nil fun _ => isDigit_of_mem_toDigits
    rwa [valueFrom_toDigits, ← toList_toString_negSucc] at hdigits

/-- The integer of a numeral, however large it is. -/
def integer? (cs : List Char) : Option Int :=
  if !(unsignedPart cs).isEmpty && (unsignedPart cs).all isDigit then
    some (signedValue (isNegative cs) (valueFrom 0 (unsignedPart cs)))
  else none

theorem integer?_eq_some_iff : integer? cs = some n ↔ Denotes cs n := by
  rw [denotes_iff, integer?, Option.ite_none_right_eq_some]
  simp only [Bool.and_eq_true, Bool.not_eq_true', List.isEmpty_eq_false_iff, List.all_eq_true, Option.some.injEq,
    and_assoc, @eq_comm Int n]

/-- A run of digits is read as its value, and as the greatest integer when the value is larger. -/
theorem nearestOr_decimal {cs : List Char} (hne : cs ≠ []) (h : ∀ c ∈ cs, isDigit c = true) (d : Int) :
    (decimal (String.ofList cs)).nearestOr d = min (valueFrom 0 cs : Int) Word.greatest := by
  have hdenotes : Denotes (String.ofList cs).toList (valueFrom 0 cs) := by
    rw [String.toList_ofList]
    exact .bare hne h
  rw [hdenotes.decimal_eq, nearestOr_nearest]
  dsimp only [Word.least, Word.greatest]
  omega

end

end SolidityAst.Text.Numeral
