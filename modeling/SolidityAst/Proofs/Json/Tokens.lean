import Mathlib.Data.Nat.Init
import SolidityAst.Json.Reader
import SolidityAst.Json.Writer
import SolidityAst.Proofs.Text.Numeral
import SolidityAst.Proofs.Text.Utf8Order

/-!
Strings and numbers that are written are read back.

A string is read back whatever follows its closing quote. A number is one as long as nothing follows that
would go on with it, so what may follow is part of the statement.
-/
namespace SolidityAst.Json

open Text

/-! ## Digits -/

/-- One digit or more. -/
def IsDigits (ds : List Char) : Prop := ds ≠ [] ∧ ∀ c ∈ ds, isDigit c = true

/-- What follows digits is no digit. -/
def NoDigit (k : List Char) : Prop := ∀ c ∈ k.head?, isDigit c = false

theorem isDigits_of_readDigits {cs ds rest : List Char} (h : readDigits cs = some (ds, rest)) :
    IsDigits ds := by
  rw [readDigits] at h
  split at h
  · cases h
  · rename_i hne
    cases h
    refine ⟨by simpa using hne, fun c hc => ?_⟩
    exact List.all_eq_true.mp (List.all_takeWhile) c hc

theorem readDigits_append {ds k : List Char} (h : IsDigits ds) (hk : NoDigit k) :
    readDigits (ds ++ k) = some (ds, k) := by
  have htake : k.takeWhile isDigit = [] := by
    cases k with
    | nil => rfl
    | cons c k => rw [List.takeWhile_cons_of_neg (by simp [hk c rfl])]
  have hdrop : k.dropWhile isDigit = k := by
    cases k with
    | nil => rfl
    | cons c k => rw [List.dropWhile_cons_of_neg (by simp [hk c rfl])]
  rw [readDigits, List.takeWhile_append_of_pos h.2, List.dropWhile_append_of_pos h.2, htake, hdrop,
    List.append_nil, if_neg (by simpa using h.1)]

/-! ## Numbers -/

/-- A zero, or digits that do not start with one. -/
def IsWhole (ds : List Char) : Prop := ds = ['0'] ∨ IsDigits ds ∧ ds.head? ≠ some '0'

/-- Nothing, or a point and digits. -/
def IsFraction (cs : List Char) : Prop := cs = [] ∨ ∃ ds, cs = '.' :: ds ∧ IsDigits ds

/-- Nothing, or a mark, perhaps a sign, and digits. -/
def IsExponent (cs : List Char) : Prop :=
  cs = [] ∨ ∃ mark sign ds, cs = mark :: (sign ++ ds) ∧ (mark = 'e' ∨ mark = 'E') ∧
    (sign = [] ∨ sign = ['+'] ∨ sign = ['-']) ∧ IsDigits ds

/-- The literals of numbers without a sign. -/
inductive IsMagnitude : List Char → Prop
  | mk {whole fraction exponent : List Char} (hwhole : IsWhole whole) (hfraction : IsFraction fraction)
    (hexponent : IsExponent exponent) : IsMagnitude (whole ++ fraction ++ exponent)

/-- The literals of numbers. -/
inductive IsNumber : List Char → Prop
  | positive {ds : List Char} (h : IsMagnitude ds) : IsNumber ds
  | negative {ds : List Char} (h : IsMagnitude ds) : IsNumber ('-' :: ds)

/-- What follows a number does not go on with it. -/
def Stops (k : List Char) : Prop :=
  ∀ c ∈ k.head?, isDigit c = false ∧ c ≠ '.' ∧ c ≠ 'e' ∧ c ≠ 'E'

theorem stops_nil : Stops [] := fun _ h => nomatch h

theorem stops_cons {c : Char} (h : isDigit c = false ∧ c ≠ '.' ∧ c ≠ 'e' ∧ c ≠ 'E') (k : List Char) :
    Stops (c :: k) := by
  intro c' hc'
  cases hc'
  exact h

theorem Stops.noDigit {k : List Char} (h : Stops k) : NoDigit k := fun c hc => (h c hc).1

/-! ### What is read is a literal -/

theorem isWhole_of_readWhole {cs ds rest : List Char} (h : readWhole cs = some (ds, rest)) :
    IsWhole ds := by
  unfold readWhole at h
  split at h
  · cases h
    exact .inl rfl
  · rename_i hzero
    refine .inr ⟨isDigits_of_readDigits h, fun hhead => ?_⟩
    -- The digits are the first characters, so these do not start with a zero either.
    rw [readDigits] at h
    split at h
    · cases h
    · cases h
      cases cs with
      | nil => cases hhead
      | cons c cs =>
        rw [List.takeWhile_cons] at hhead
        split at hhead
        · cases hhead
          exact hzero cs rfl
        · cases hhead

theorem isFraction_of_readFraction {cs fs rest : List Char} (h : readFraction cs = some (fs, rest)) :
    IsFraction fs := by
  unfold readFraction at h
  split at h
  · obtain ⟨⟨ds, rest'⟩, hds, heq⟩ := Option.map_eq_some_iff.mp h
    cases heq
    exact .inr ⟨ds, rfl, isDigits_of_readDigits hds⟩
  · cases h
    exact .inl rfl

theorem isExponent_of_readExponent {cs es rest : List Char} (h : readExponent cs = some (es, rest)) :
    IsExponent es := by
  unfold readExponent at h
  split at h
  · rename_i e cs
    split at h
    · rename_i hmark
      have hmark' : e = 'e' ∨ e = 'E' := by simpa using hmark
      split at h
      all_goals
        obtain ⟨⟨ds, rest'⟩, hds, heq⟩ := Option.map_eq_some_iff.mp h
        cases heq
      · exact .inr ⟨e, ['+'], ds, rfl, hmark', by simp, isDigits_of_readDigits hds⟩
      · exact .inr ⟨e, ['-'], ds, rfl, hmark', by simp, isDigits_of_readDigits hds⟩
      · exact .inr ⟨e, [], ds, rfl, hmark', by simp, isDigits_of_readDigits hds⟩
    · cases h
      exact .inl rfl
  · cases h
    exact .inl rfl

theorem isMagnitude_of_readMagnitude {cs ds rest : List Char} (h : readMagnitude cs = some (ds, rest)) :
    IsMagnitude ds := by
  rw [readMagnitude] at h
  obtain ⟨⟨whole, cs₁⟩, hwhole, h⟩ := Option.bind_eq_some_iff.mp h
  obtain ⟨⟨fraction, cs₂⟩, hfraction, h⟩ := Option.bind_eq_some_iff.mp h
  obtain ⟨⟨exponent, cs₃⟩, hexponent, h⟩ := Option.bind_eq_some_iff.mp h
  cases h
  exact .mk (isWhole_of_readWhole hwhole) (isFraction_of_readFraction hfraction)
    (isExponent_of_readExponent hexponent)

theorem isNumber_of_readNumber {cs rest : List Char} {literal : String}
    (h : readNumber cs = some (literal, rest)) : IsNumber literal.toList := by
  unfold readNumber at h
  split at h
  all_goals
    obtain ⟨⟨ds, rest'⟩, hds, heq⟩ := Option.map_eq_some_iff.mp h
    cases heq
    rw [String.toList_ofList]
  · exact .negative (isMagnitude_of_readMagnitude hds)
  · exact .positive (isMagnitude_of_readMagnitude hds)

/-! ### A literal is read -/

theorem IsWhole.head {ds : List Char} (h : IsWhole ds) : ∃ c cs, ds = c :: cs ∧ isDigit c = true := by
  rcases h with rfl | ⟨⟨hne, hdigits⟩, -⟩
  · exact ⟨'0', [], rfl, by decide⟩
  · obtain ⟨c, cs, rfl⟩ := List.exists_cons_of_ne_nil hne
    exact ⟨c, cs, rfl, hdigits c List.mem_cons_self⟩

theorem readWhole_append {ds k : List Char} (h : IsWhole ds) (hk : NoDigit k) :
    readWhole (ds ++ k) = some (ds, k) := by
  rcases h with rfl | ⟨hdigits, hzero⟩
  · rfl
  · obtain ⟨c, cs, rfl⟩ := List.exists_cons_of_ne_nil hdigits.1
    have hc : c ≠ '0' := fun hc => hzero (by rw [hc]; rfl)
    unfold readWhole
    split
    · rename_i heq
      cases heq
      exact absurd rfl hc
    · exact readDigits_append hdigits hk

theorem readFraction_append {fs k : List Char} (h : IsFraction fs) (hk : NoDigit k)
    (hpoint : ∀ c ∈ k.head?, c ≠ '.') : readFraction (fs ++ k) = some (fs, k) := by
  rcases h with rfl | ⟨ds, rfl, hdigits⟩
  · rw [List.nil_append]
    unfold readFraction
    split
    · exact absurd rfl (hpoint '.' rfl)
    · rfl
  · show (readDigits (ds ++ k)).map _ = _
    rw [readDigits_append hdigits hk]
    rfl

theorem readExponent_append {es k : List Char} (h : IsExponent es) (hk : Stops k) :
    readExponent (es ++ k) = some (es, k) := by
  rcases h with rfl | ⟨mark, sign, ds, rfl, hmark, hsign, hdigits⟩
  · cases k with
    | nil => rfl
    | cons c k =>
      obtain ⟨-, -, he, hE⟩ := hk c rfl
      rw [List.nil_append]
      unfold readExponent
      dsimp only
      rw [if_neg (by simp [he, hE])]
  · have hmark' : (decide (mark = 'e') || decide (mark = 'E')) = true := by simpa using hmark
    have hread := readDigits_append hdigits hk.noDigit
    rw [List.cons_append]
    unfold readExponent
    dsimp only
    rw [if_pos hmark']
    rcases hsign with rfl | rfl | rfl
    · -- Without a sign the first character is a digit and so none of the two signs.
      obtain ⟨c, cs, rfl⟩ := List.exists_cons_of_ne_nil hdigits.1
      have hc := hdigits.2 c List.mem_cons_self
      have hplus : c ≠ '+' := fun h => absurd (h ▸ hc) (by decide)
      have hminus : c ≠ '-' := fun h => absurd (h ▸ hc) (by decide)
      rw [List.nil_append, List.cons_append] at *
      split
      · exact absurd (List.cons.inj ‹c :: (cs ++ k) = '+' :: _›).1 hplus
      · exact absurd (List.cons.inj ‹c :: (cs ++ k) = '-' :: _›).1 hminus
      · rw [hread]
        rfl
    · show (readDigits (ds ++ k)).map _ = _
      rw [hread]
      rfl
    · show (readDigits (ds ++ k)).map _ = _
      rw [hread]
      rfl

theorem readMagnitude_append {ds k : List Char} (h : IsMagnitude ds) (hk : Stops k) :
    readMagnitude (ds ++ k) = some (ds, k) := by
  obtain ⟨hwhole, hfraction, hexponent⟩ := h
  rename_i whole fraction exponent
  -- After the whole part comes a point, a mark or `k`; after the fraction a mark or `k`.
  have hafter : ∀ c ∈ (exponent ++ k).head?, isDigit c = false ∧ c ≠ '.' := by
    intro c hc
    rcases hexponent with rfl | ⟨mark, sign, es, rfl, hmark, -⟩
    · exact ⟨(hk c hc).1, (hk c hc).2.1⟩
    · cases hc
      rcases hmark with rfl | rfl <;> decide
  have hwholeEnd : NoDigit (fraction ++ (exponent ++ k)) := by
    intro c hc
    rcases hfraction with rfl | ⟨fs, rfl, -⟩
    · exact (hafter c hc).1
    · cases hc
      decide
  rw [List.append_assoc, List.append_assoc, readMagnitude, readWhole_append hwhole hwholeEnd,
    Option.bind_eq_bind, Option.bind_some]
  dsimp only
  rw [readFraction_append hfraction (fun c hc => (hafter c hc).1) (fun c hc => (hafter c hc).2),
    Option.bind_some]
  dsimp only
  rw [readExponent_append hexponent hk]
  rfl

theorem IsMagnitude.head {ds : List Char} (h : IsMagnitude ds) :
    ∃ c cs, ds = c :: cs ∧ isDigit c = true := by
  obtain ⟨hwhole, -, -⟩ := h
  obtain ⟨c, cs, rfl, hc⟩ := hwhole.head
  exact ⟨c, _, rfl, hc⟩

theorem IsNumber.head {ds : List Char} (h : IsNumber ds) :
    ∃ c cs, ds = c :: cs ∧ (isDigit c = true ∨ c = '-') := by
  cases h with
  | positive h =>
    obtain ⟨c, cs, rfl, hc⟩ := h.head
    exact ⟨c, cs, rfl, .inl hc⟩
  | negative h => exact ⟨'-', _, rfl, .inr rfl⟩

theorem readNumber_append {literal : String} {k : List Char} (h : IsNumber literal.toList)
    (hk : Stops k) : readNumber (literal.toList ++ k) = some (literal, k) := by
  have hback : String.ofList literal.toList = literal := String.ofList_toList
  generalize literal.toList = ds at h hback
  cases h with
  | negative h =>
    show (readMagnitude (_ ++ k)).map _ = _
    rw [readMagnitude_append h hk, Option.map_some]
    dsimp only
    rw [hback]
  | positive h =>
    have hread := readMagnitude_append h hk
    obtain ⟨c, cs, rfl, hc⟩ := h.head
    have hminus : c ≠ '-' := fun h => absurd (h ▸ hc) (by decide)
    unfold readNumber
    split
    · rename_i heq
      cases heq
      exact absurd rfl hminus
    · rw [hread, Option.map_some]
      dsimp only
      rw [hback]

/-! ### Characters of a literal -/

/-- The characters that occur in literals. -/
def isNumberChar (c : Char) : Bool :=
  isDigit c || c = '-' || c = '+' || c = '.' || c = 'e' || c = 'E'

theorem isNumberChar_of_isDigit {c : Char} (h : isDigit c = true) : isNumberChar c = true := by
  simp [isNumberChar, h]

theorem ne_of_isNumberChar {c d : Char} (h : isNumberChar c = true) (hd : isNumberChar d = false) :
    c ≠ d := by
  rintro rfl
  rw [h] at hd
  cases hd

theorem isSpace_of_isNumberChar {c : Char} (h : isNumberChar c = true) : isSpace c = false := by
  have hspace : c ≠ ' ' ∧ c ≠ '\t' ∧ c ≠ '\n' ∧ c ≠ '\r' := by
    refine ⟨?_, ?_, ?_, ?_⟩ <;> exact ne_of_isNumberChar h (by decide)
  simp [isSpace, hspace]

theorem IsWhole.chars {ds : List Char} (h : IsWhole ds) : ∀ c ∈ ds, isNumberChar c = true := by
  rcases h with rfl | ⟨hdigits, -⟩
  · exact List.all_eq_true.mp (by decide)
  · exact fun c hc => isNumberChar_of_isDigit (hdigits.2 c hc)

theorem IsFraction.chars {cs : List Char} (h : IsFraction cs) : ∀ c ∈ cs, isNumberChar c = true := by
  rcases h with rfl | ⟨ds, rfl, hdigits⟩
  · exact fun _ hc => nomatch hc
  · exact List.forall_mem_cons.mpr ⟨by decide, fun c hc => isNumberChar_of_isDigit (hdigits.2 c hc)⟩

theorem IsExponent.chars {cs : List Char} (h : IsExponent cs) : ∀ c ∈ cs, isNumberChar c = true := by
  rcases h with rfl | ⟨mark, sign, ds, rfl, hmark, hsign, hdigits⟩
  · exact fun _ hc => nomatch hc
  · refine List.forall_mem_cons.mpr ⟨by rcases hmark with rfl | rfl <;> decide, ?_⟩
    refine List.forall_mem_append.mpr ⟨?_, fun c hc => isNumberChar_of_isDigit (hdigits.2 c hc)⟩
    rcases hsign with rfl | rfl | rfl <;> exact List.all_eq_true.mp (by decide)

theorem IsMagnitude.chars {ds : List Char} (h : IsMagnitude ds) : ∀ c ∈ ds, isNumberChar c = true := by
  obtain ⟨hwhole, hfraction, hexponent⟩ := h
  simp only [List.forall_mem_append]
  exact ⟨⟨hwhole.chars, hfraction.chars⟩, hexponent.chars⟩

theorem IsNumber.chars {ds : List Char} (h : IsNumber ds) : ∀ c ∈ ds, isNumberChar c = true := by
  cases h with
  | positive h => exact h.chars
  | negative h => exact List.forall_mem_cons.mpr ⟨by decide, h.chars⟩

/-! ### Integers -/

theorem toDigits_head {n : Nat} (h : 0 < n) : (Nat.toDigits 10 n).head? ≠ some '0' := by
  induction n using Nat.strongRecOn with
  | ind n ih =>
    by_cases hlt : n < 10
    · rw [Nat.toDigits_of_lt_base hlt]
      have hdigit : ∀ d < 10, 0 < d → [d.digitChar].head? ≠ some '0' := by decide
      exact hdigit n hlt h
    · -- The first digit is that of the number without its last digit.
      rw [Nat.toDigits_of_base_le (by decide) (by omega), List.head?_append,
        Option.or_of_isSome (by simp [Nat.toDigits_ne_nil])]
      exact ih (n / 10) (by omega) (by omega)

theorem isMagnitude_toDigits (n : Nat) : IsMagnitude (Nat.toDigits 10 n) := by
  have hwhole : IsWhole (Nat.toDigits 10 n) := by
    rcases Nat.eq_zero_or_pos n with rfl | hpos
    · exact .inl (Nat.toDigits_zero 10)
    · exact .inr ⟨⟨Nat.toDigits_ne_nil, fun _ => Numeral.isDigit_of_mem_toDigits⟩, toDigits_head hpos⟩
  have hparts := IsMagnitude.mk hwhole (.inl rfl : IsFraction []) (.inl rfl : IsExponent [])
  rwa [List.append_nil, List.append_nil] at hparts

theorem isNumber_toString (n : Int) : IsNumber (toString n).toList := by
  cases n with
  | ofNat n =>
    have htext : (toString (Int.ofNat n)).toList = Nat.toDigits 10 n := Numeral.toList_toString_natCast n
    rw [htext]
    exact .positive (isMagnitude_toDigits n)
  | negSucc n =>
    rw [Numeral.toList_toString_negSucc]
    exact .negative (isMagnitude_toDigits (n + 1))

/-! ## Strings -/

theorem digit_hexDigit : ∀ d < 16, hex4?.digit (hexDigit d) = some d := by
  decide

-- Four digits are enough for a character of the first plane.
theorem hex4?_hexDigits {n : Nat} (h : n < 0x10000) :
    ∃ a b c d, hexDigits 4 n = [a, b, c, d] ∧ hex4? a b c d = some n := by
  refine ⟨_, _, _, _, rfl, ?_⟩
  rw [hex4?, digit_hexDigit _ (by omega), digit_hexDigit _ (by omega), digit_hexDigit _ (by omega),
    digit_hexDigit _ (by omega)]
  have hsum : n / Nat.pow 16 3 % 16 * 4096 + n / Nat.pow 16 2 % 16 * 256 + n / Nat.pow 16 1 % 16 * 16
      + n / Nat.pow 16 0 % 16 = n := by
    show n / 4096 % 16 * 4096 + n / 256 % 16 * 256 + n / 16 % 16 * 16 + n / 1 % 16 = n
    omega
  exact congrArg some hsum

/-- Puts a character before a string that was read. -/
def prepend (c : Char) : String × List Char → String × List Char
  | (s, rest) => (String.ofList (c :: s.toList), rest)

theorem readString_of_char {c : Char} {cs k : List Char}
    (h : readPieces cs = (readPieces k).map fun (ps, rest) => (.char c :: ps, rest)) :
    readString cs = (readString k).map (prepend c) := by
  rw [readString, readString, h, Option.map_map, Option.map_map]
  congr 1
  funext p
  simp [prepend, joinPieces]

theorem joinPieces_unit {c : Char} (ps : List Piece) :
    joinPieces (.unit c.toNat :: ps) = c :: joinPieces ps := by
  -- No character is half of a surrogate pair.
  have hvalid : ¬ (0xD800 ≤ c.toNat ∧ c.toNat < 0xE000) := Utf8.toNat_not_surrogate c
  have hhigh : isHighSurrogate c.toNat = false := by
    simp only [isHighSurrogate, Bool.and_eq_false_iff, decide_eq_false_iff_not]
    omega
  have hlow : isLowSurrogate c.toNat = false := by
    simp only [isLowSurrogate, Bool.and_eq_false_iff, decide_eq_false_iff_not]
    omega
  have hself : joinPieces.unitChar c.toNat = c := by
    rw [joinPieces.unitChar, hhigh, hlow]
    exact Char.ofNat_toNat c
  match ps with
  | [] => simp [joinPieces, hself]
  | .char d :: ps => simp [joinPieces, hself]
  | .unit m :: ps => rw [joinPieces, hhigh, Bool.false_and, if_neg (by decide), hself]

theorem readString_of_unit {c : Char} {cs k : List Char}
    (h : readPieces cs = (readPieces k).map fun (ps, rest) => (.unit c.toNat :: ps, rest)) :
    readString cs = (readString k).map (prepend c) := by
  rw [readString, readString, h, Option.map_map, Option.map_map]
  congr 1
  funext p
  simp [prepend, joinPieces_unit]

theorem readPieces_plain {c : Char} (hquote : c ≠ '"') (hslash : c ≠ '\\') (hlow : ¬ c.toNat < 0x20)
    (k : List Char) :
    readPieces (c :: k) = (readPieces k).map fun (ps, rest) => (.char c :: ps, rest) := by
  have hplain : ¬ (decide (c.toNat < 0x20) || decide (c = '\\')) = true := by
    simp [hslash, Nat.le_of_not_lt hlow]
  rw [readPieces, if_neg hplain]
  · exact hquote
  · intro a b c' d rest hc
    exact absurd hc hslash
  · intro d rest hc
    exact absurd hc hslash

theorem readPieces_short {c d : Char} (h : shortEscape? d = some c) (hu : d ≠ 'u') (k : List Char) :
    readPieces ('\\' :: d :: k) = (readPieces k).map fun (ps, rest) => (.char c :: ps, rest) := by
  rw [readPieces, h]
  intro a b c' e rest hd
  exact absurd hd hu

theorem readPieces_code {c : Char} (h : c.toNat < 0x10000) (k : List Char) :
    readPieces ('\\' :: 'u' :: (hexDigits 4 c.toNat ++ k)) =
      (readPieces k).map fun (ps, rest) => (.unit c.toNat :: ps, rest) := by
  obtain ⟨a, b, c', d, hdigits, hvalue⟩ := hex4?_hexDigits h
  rw [hdigits]
  show readPieces ('\\' :: 'u' :: a :: b :: c' :: d :: k) = _
  rw [readPieces, hvalue]

/-- The ways in which a character stands in a string: for itself, behind a backslash, or by its code. -/
inductive Written (c : Char) : List Char → Prop
  | plain (hquote : c ≠ '"') (hslash : c ≠ '\\') (hlow : ¬ c.toNat < 0x20) : Written c [c]
  | short {d : Char} (h : shortEscape? d = some c) (hu : d ≠ 'u') : Written c ['\\', d]
  | code (h : c.toNat < 0x10000) : Written c ('\\' :: 'u' :: hexDigits 4 c.toNat)

theorem written_writeChar (style : Style) (c : Char) : Written c (writeChar style c) := by
  unfold writeChar
  by_cases hself : (decide (c = '"') || decide (c = '\\')) = true
  · rw [if_pos hself]
    rw [Bool.or_eq_true, decide_eq_true_eq, decide_eq_true_eq] at hself
    rcases hself with rfl | rfl <;> exact .short rfl (by decide)
  rw [if_neg hself]
  by_cases hb : c = '\x08'
  · rw [if_pos hb, hb]
    exact .short rfl (by decide)
  rw [if_neg hb]
  by_cases hf : c = '\x0C'
  · rw [if_pos hf, hf]
    exact .short rfl (by decide)
  rw [if_neg hf]
  by_cases hn : c = '\n'
  · rw [if_pos hn, hn]
    exact .short rfl (by decide)
  rw [if_neg hn]
  by_cases hr : c = '\r'
  · rw [if_pos hr, hr]
    exact .short rfl (by decide)
  rw [if_neg hr]
  by_cases ht : c = '\t'
  · rw [if_pos ht, ht]
    exact .short rfl (by decide)
  rw [if_neg ht]
  simp only [Bool.or_eq_true, Bool.and_eq_true, decide_eq_true_eq, not_or] at hself ⊢
  split
  · rename_i hcode
    refine .code ?_
    rcases hcode with ((hlow | ⟨-, (rfl | rfl) | rfl⟩) | hline) | hline
    · omega
    · decide
    · decide
    · decide
    · omega
    · omega
  · rename_i hplain
    exact .plain hself.1 hself.2 fun hlow => hplain (.inl (.inl (.inl hlow)))

theorem Written.readString_append {c : Char} {cs : List Char} (h : Written c cs) (k : List Char) :
    readString (cs ++ k) = (readString k).map (prepend c) := by
  cases h with
  | plain hquote hslash hlow => exact readString_of_char (readPieces_plain hquote hslash hlow k)
  | short h hu => exact readString_of_char (readPieces_short h hu k)
  | code h => exact readString_of_unit (readPieces_code h k)

/-- A string is read back, whatever follows its closing quote. -/
theorem readString_written (style : Style) (s : String) (k : List Char) :
    readString (s.toList.flatMap (writeChar style) ++ '"' :: k) = some (s, k) := by
  have hback : String.ofList s.toList = s := String.ofList_toList
  rw [← hback, String.toList_ofList]
  generalize s.toList = cs
  induction cs with
  | nil => rfl
  | cons c cs ih =>
    rw [List.flatMap_cons, List.append_assoc, (written_writeChar style c).readString_append, ih,
      Option.map_some, prepend, String.toList_ofList]

end SolidityAst.Json
