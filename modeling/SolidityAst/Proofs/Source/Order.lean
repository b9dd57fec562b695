import Mathlib.Algebra.Ring.Nat
import Mathlib.Data.List.Induction
import SolidityAst.Proofs.Source.Lines

/-!
Positions identify the character boundaries of a valid source and keep their order.

On a boundary the position is where a cursor stands that has moved over the characters before it.  Each
move takes the cursor forward, so a later boundary has a later position.  The lines above a position and
the characters before it on its line add up to the offset it came from.
-/
namespace SolidityAst.Source

open Text

/-! ## Positions in order -/

/-- Positions are ordered by line, and on one line by column. -/
instance : LT Position := ⟨fun p q => p.line < q.line ∨ (p.line = q.line ∧ p.column < q.column)⟩

instance : LE Position := ⟨fun p q => p = q ∨ p < q⟩

instance (p q : Position) : Decidable (p < q) :=
  inferInstanceAs (Decidable (p.line < q.line ∨ (p.line = q.line ∧ p.column < q.column)))

theorem Position.lt_trans {p q r : Position} (hpq : p < q) (hqr : q < r) : p < r := by
  have hpq' : p.line < q.line ∨ (p.line = q.line ∧ p.column < q.column) := hpq
  have hqr' : q.line < r.line ∨ (q.line = r.line ∧ q.column < r.column) := hqr
  show p.line < r.line ∨ (p.line = r.line ∧ p.column < r.column)
  omega

/-- A location lies within another when it starts no earlier and ends no later. -/
def Location.Within (inner outer : Location) : Prop :=
  outer.start ≤ inner.start ∧ inner.finish ≤ outer.finish

/-! ## A cursor over the characters -/

/-- Where a cursor stands after the next character. -/
def Position.advance (p : Position) (c : Char) : Position :=
  if c = '\n' then ⟨p.line + 1, 0⟩ else ⟨p.line, p.column + 1⟩

theorem Position.lt_advance (p : Position) (c : Char) : p < p.advance c := by
  unfold advance
  split
  next => exact .inl (Nat.lt_succ_self _)
  next => exact .inr ⟨rfl, Nat.lt_succ_self _⟩

theorem Position.lt_foldl_advance (p : Position) (c : Char) (cs : List Char) :
    p < (c :: cs).foldl advance p := by
  induction cs generalizing p c with
  | nil => exact p.lt_advance c
  | cons d cs ih => exact lt_trans (p.lt_advance c) (ih (p.advance c) d)

/-! ## Line feeds in a text -/

theorem encodeChar_lineFeed : Utf8.encodeChar '\n' = [0x0A] := by decide

theorem notMem_encodeChar {c : Char} (hc : c ≠ '\n') : (0x0A : UInt8) ∉ Utf8.encodeChar c := by
  intro hmem
  apply hc
  have hnat : c.toNat = 0x0A := Utf8.toNat_of_mem_encodeChar hmem (by decide)
  rw [← Char.ofNat_toNat c, hnat]

theorem lastLine_append {xs ys : Bytes} (hys : (0x0A : UInt8) ∉ ys) :
    lastLine (xs ++ ys) = lastLine xs ++ ys := by
  induction ys using List.reverseRecOn with
  | nil => rw [List.append_nil, List.append_nil]
  | append_singleton ys y ih =>
    rw [List.mem_append, not_or] at hys
    have hy : (y != 0x0A) = true := by
      rw [bne_iff_ne]
      exact fun heq => hys.2 (heq ▸ List.mem_singleton_self _)
    rw [← List.append_assoc, lastLine, List.rtakeWhile_concat_pos (· != 0x0A) _ _ hy, ← lastLine, ih hys.1,
      List.append_assoc]

theorem lastLine_lineFeed (xs : Bytes) : lastLine (xs ++ [0x0A]) = [] :=
  List.rtakeWhile_concat_neg _ _ _ (by decide)

/-- The characters of a text after its last line feed, with the position of its end. -/
theorem exists_lastLine_chars (cs : List Char) :
    ∃ last, lastLine (Utf8.encodeChars cs) = Utf8.encodeChars last ∧
      cs.foldl Position.advance ⟨1, 0⟩ =
        ⟨1 + (Utf8.encodeChars cs).count 0x0A, last.length⟩ := by
  induction cs using List.reverseRecOn with
  | nil => exact ⟨[], rfl, rfl⟩
  | append_singleton cs c ih =>
    obtain ⟨last, hlast, hplace⟩ := ih
    rw [Utf8.encodeChars_concat, List.foldl_append, hplace, List.count_append]
    show ∃ last', _ ∧ Position.advance _ c = _
    by_cases hc : c = '\n'
    · subst hc
      refine ⟨[], ?_, ?_⟩
      · rw [encodeChar_lineFeed, lastLine_lineFeed]
        rfl
      · rw [encodeChar_lineFeed, Position.advance, if_pos rfl]
        rfl
    · refine ⟨last ++ [c], ?_, ?_⟩
      · rw [lastLine_append (notMem_encodeChar hc), hlast, Utf8.encodeChars_concat]
      · rw [Position.advance, if_neg hc, List.count_eq_zero.mpr (notMem_encodeChar hc), Nat.add_zero,
          List.length_append, List.length_singleton]
        rfl

/-- The position between two characters of a text is where the cursor stands there. -/
theorem position_eq_cursor (before after : List Char) :
    (LineIndex.ofSource (Utf8.encodeChars (before ++ after))).position (Utf8.encodeChars before).length =
      before.foldl Position.advance ⟨1, 0⟩ := by
  obtain ⟨last, hlast, hplace⟩ := exists_lastLine_chars before
  rw [Utf8.encodeChars_append, LineIndex.position_eq (by rw [List.length_append]; omega),
    List.take_left, hlast, hplace, Utf8.decode_encodeChars, List.length_map]

/-- A later boundary has a later position. -/
theorem position_lt {source : Bytes} (hvalid : Utf8.valid source = true) {a b : Nat}
    (ha : Utf8.isBoundary source a = true) (hb : Utf8.isBoundary source b = true) (hab : a < b) :
    (LineIndex.ofSource source).position a < (LineIndex.ofSource source).position b := by
  obtain ⟨cs, rfl⟩ := Utf8.valid_iff.mp hvalid
  obtain ⟨before, after, hcut, rfl⟩ := Utf8.exists_cut_of_isBoundary ha
  obtain ⟨before', after', hcut', rfl⟩ := Utf8.exists_cut_of_isBoundary hb
  have hplace := position_eq_cursor before after
  have hplace' := position_eq_cursor before' after'
  rw [← hcut] at hplace
  rw [← hcut'] at hplace'
  rw [hplace, hplace']
  -- Both cut the same characters, so what one has before it starts what the other has.
  rcases List.prefix_or_prefix_of_prefix ⟨after, hcut.symm⟩ ⟨after', hcut'.symm⟩ with
    ⟨between, rfl⟩ | ⟨between, rfl⟩
  · match between with
    | [] =>
      rw [List.append_nil] at hab
      omega
    | c :: between =>
      rw [List.foldl_append]
      exact Position.lt_foldl_advance _ c between
  · rw [Utf8.encodeChars_append, List.length_append] at hab
    omega

-- An offset inside a character leaves its first bytes stray, and each of them counts: its position may lie
-- past that of the character's end.
example : (LineIndex.ofSource [0xF0, 0x9F, 0x98, 0x80]).position 4 <
    (LineIndex.ofSource [0xF0, 0x9F, 0x98, 0x80]).position 3 := by
  decide +kernel

theorem position_le {source : Bytes} (hvalid : Utf8.valid source = true) {a b : Nat}
    (ha : Utf8.isBoundary source a = true) (hb : Utf8.isBoundary source b = true) (hab : a ≤ b) :
    (LineIndex.ofSource source).position a ≤ (LineIndex.ofSource source).position b := by
  rcases Nat.eq_or_lt_of_le hab with rfl | hlt
  · exact .inl rfl
  · exact .inr (position_lt hvalid ha hb hlt)

/-! ## The start of a source -/

/-- The position at which every source starts. -/
def Position.origin : Position := ⟨1, 0⟩

theorem Position.le_origin_iff {p : Position} (hline : 0 < p.line) : p ≤ .origin ↔ p = .origin := by
  constructor
  · intro h
    rcases h with h | h | ⟨-, h⟩
    · exact h
    · have : p.line < 1 := h
      omega
    · cases h
  · exact fun h => .inl h

namespace LineIndex

variable {source : Bytes}

theorem position_natCast (source : Bytes) (o : Nat) :
    (ofSource source).position o = (ofSource source).position (min o source.length : Nat) := by
  have hclamp : (max 0 (min (o : Int) source.length)).toNat = min o source.length := by omega
  rw [position_clamp, hclamp]

theorem position_of_nonpos {offset : Int} (h : offset ≤ 0) : (ofSource source).position offset = .origin := by
  have hclamp : (max 0 (min offset source.length)).toNat = 0 := by omega
  rw [position_clamp, hclamp, position_eq (Nat.zero_le _)]
  rfl

theorem position_of_neg {offset : Int} (h : offset < 0) : (ofSource source).position offset = .origin :=
  position_of_nonpos (Int.le_of_lt h)

/-- Only the start of a source has the first position. -/
theorem position_eq_origin_iff {o : Nat} (ho : o ≤ source.length) :
    (ofSource source).position o = .origin ↔ o = 0 := by
  rw [position_eq ho]
  constructor
  · intro h
    rw [Position.origin, Position.mk.injEq] at h
    obtain ⟨hcount, hlength⟩ := h
    -- Without a line feed all that comes before the offset is one line, and it has no characters.
    have hnone : (0x0A : UInt8) ∉ source.take o := List.count_eq_zero.mp (by omega)
    have hline : lastLine ([] ++ source.take o) = source.take o := lastLine_append hnone
    rw [List.nil_append] at hline
    rw [hline, List.length_eq_zero_iff] at hlength
    have hempty : source.take o = [] := by
      by_contra hne
      exact Utf8.decode_ne_nil hne hlength
    have hzero : min o source.length = 0 := by
      rw [← List.length_take, hempty, List.length_nil]
    omega
  · rintro rfl
    rfl

/-- Past the start a position depends on the source: an empty one and a line feed already differ. -/
theorem exists_position_ne {offset : Int} (h : 0 < offset) (p : Position) :
    ∃ source, (ofSource source).position offset ≠ p := by
  by_cases hp : p = .origin
  · have hclamp : (max 0 (min offset [(0x0A : UInt8)].length)).toNat = 1 := by
      rw [List.length_singleton]
      omega
    refine ⟨[0x0A], ?_⟩
    rw [hp, position_clamp, hclamp, Ne, position_eq_origin_iff (Nat.le_refl 1)]
    decide
  · have hclamp : (max 0 (min offset ([] : Bytes).length)).toNat = 0 := by
      rw [List.length_nil]
      omega
    refine ⟨[], ?_⟩
    rw [position_clamp, hclamp, (position_eq_origin_iff (Nat.le_refl 0)).mpr rfl]
    exact Ne.symm hp

end LineIndex

/-! ## Offsets from positions -/

/-- The offset at a position: the lines above it, each with its line feed, and the characters before it
on its own line. -/
def offsetOf? (source : Bytes) (p : Position) : Option Nat :=
  let lines := source.splitOn 0x0A
  lines[p.line - 1]?.bind fun line =>
    if p.column ≤ (Utf8.chars line).length then
      some (((lines.take (p.line - 1)).map (·.length + 1)).sum +
        (Utf8.encodeChars ((Utf8.chars line).take p.column)).length)
    else none

theorem length_splitOn (bs : Bytes) : (bs.splitOn 0x0A).length = bs.count 0x0A + 1 := by
  induction bs with
  | nil => rfl
  | cons b bs ih =>
    rw [List.splitOn_cons_eq_if_modifyHead, List.count_cons]
    split
    next => rw [List.length_cons, ih]
    next => rw [List.length_modifyHead, ih, Nat.add_zero]

theorem sum_splitOn (bs : Bytes) : ((bs.splitOn 0x0A).map (·.length + 1)).sum = bs.length + 1 := by
  induction bs with
  | nil => rfl
  | cons b bs ih =>
    rw [List.splitOn_cons_eq_if_modifyHead]
    split
    next =>
      rw [List.map_cons, List.sum_cons, ih, List.length_nil, List.length_cons]
      omega
    next =>
      obtain ⟨line, lines, hlines⟩ := List.exists_cons_of_ne_nil (List.splitOn_ne_nil 0x0A bs)
      rw [hlines, List.map_cons, List.sum_cons] at ih
      rw [hlines, List.modifyHead_cons, List.map_cons, List.sum_cons, List.length_cons, List.length_cons]
      omega

-- Whole lines split off in front, and they have the bytes that they were split from.
theorem splitOn_whole {whole : Bytes} (hwhole : whole = [] ∨ ∃ lines, whole = lines ++ [0x0A])
    (rest : Bytes) :
    ∃ above, (whole ++ rest).splitOn 0x0A = above ++ rest.splitOn 0x0A ∧
      above.length = whole.count 0x0A ∧ (above.map (·.length + 1)).sum = whole.length := by
  rcases hwhole with rfl | ⟨lines, rfl⟩
  · exact ⟨[], rfl, rfl, rfl⟩
  · refine ⟨lines.splitOn 0x0A, ?_, ?_, ?_⟩
    · rw [List.append_assoc]
      exact List.splitOn_append_cons_self lines rest
    · rw [length_splitOn, List.count_append]
      rfl
    · rw [sum_splitOn, List.length_append]
      rfl

theorem splitOn_head {start : Bytes} (hstart : (0x0A : UInt8) ∉ start) (rest : Bytes) :
    ∃ more below, (start ++ rest).splitOn 0x0A = (start ++ more) :: below := by
  induction start with
  | nil => exact List.exists_cons_of_ne_nil (List.splitOn_ne_nil 0x0A rest)
  | cons b start ih =>
    rw [List.mem_cons, not_or] at hstart
    obtain ⟨more, below, hsplit⟩ := ih hstart.2
    refine ⟨more, below, ?_⟩
    rw [List.cons_append, List.splitOn_cons_eq_if_modifyHead, if_neg (by simpa using Ne.symm hstart.1), hsplit]
    rfl

/-- A boundary is found again from its position. -/
theorem offsetOf?_position {source : Bytes} (hvalid : Utf8.valid source = true) {a : Nat}
    (ha : Utf8.isBoundary source a = true) :
    offsetOf? source ((LineIndex.ofSource source).position a) = some a := by
  obtain ⟨cs, rfl⟩ := Utf8.valid_iff.mp hvalid
  obtain ⟨before, after, rfl, rfl⟩ := Utf8.exists_cut_of_isBoundary ha
  obtain ⟨last, hlast, hplace⟩ := exists_lastLine_chars before
  obtain ⟨whole, hbefore, hcount, hwhole⟩ := exists_lastLine (Utf8.encodeChars before)
  have hnone : (0x0A : UInt8) ∉ Utf8.encodeChars last := hlast ▸ notMem_lastLine _
  rw [hlast] at hbefore
  rw [position_eq_cursor, hplace, hcount, Utf8.encodeChars_append, hbefore, List.append_assoc]
  -- The source is the whole lines above, the start of the line up to the offset, and the rest.
  obtain ⟨above, habove, hlength, hsum⟩ :=
    splitOn_whole hwhole (Utf8.encodeChars last ++ Utf8.encodeChars after)
  obtain ⟨more, below, hhead⟩ := splitOn_head hnone (Utf8.encodeChars after)
  have hline : (above ++ (Utf8.encodeChars last ++ more) :: below)[above.length]? =
      some (Utf8.encodeChars last ++ more) := by
    rw [List.getElem?_append_right (Nat.le_refl _), Nat.sub_self, List.getElem?_cons_zero]
  unfold offsetOf?
  dsimp only
  rw [habove, hhead, ← hlength, Nat.add_sub_cancel_left, hline, Option.bind_some,
    Utf8.chars_encodeChars_append, if_pos (by rw [List.length_append]; omega), List.take_left,
    List.take_left, hsum, List.length_append]

/-- On the character boundaries of a valid source, later offsets have later positions, each offset is
found again from its position, and ranges of offsets that contain each other have such locations. -/
theorem positions_identify_offsets {source : Bytes} (hvalid : Utf8.valid source = true) :
    let index := LineIndex.ofSource source
    (∀ a b : Nat, Utf8.isBoundary source a = true → Utf8.isBoundary source b = true → a < b →
        index.position a < index.position b) ∧
      (∀ a : Nat, Utf8.isBoundary source a = true → offsetOf? source (index.position a) = some a) ∧
      ∀ a b c d : Nat, Utf8.isBoundary source a = true → Utf8.isBoundary source b = true →
        Utf8.isBoundary source c = true → Utf8.isBoundary source d = true → c ≤ a → b ≤ d →
          (index.location a b).Within (index.location c d) := by
  intro index
  refine ⟨fun a b => position_lt hvalid, fun a => offsetOf?_position hvalid, ?_⟩
  intro a b c d ha hb hc hd hca hbd
  exact ⟨position_le hvalid hc ha hca, position_le hvalid hb hd hbd⟩

/-- A text of two lines with characters of one, two and four bytes. -/
def mixedText : Bytes := [0x61, 0xC3, 0xA9, 0x0A, 0xF0, 0x9F, 0x98, 0x80, 0x62]

theorem positions_identify_offsets_mixedText :
    Utf8.valid mixedText = true ∧
      (LineIndex.ofSource mixedText).position 3 < (LineIndex.ofSource mixedText).position 8 ∧
      offsetOf? mixedText ((LineIndex.ofSource mixedText).position 8) = some 8 ∧
      ((LineIndex.ofSource mixedText).location 3 8).Within
        ((LineIndex.ofSource mixedText).location 1 9) := by
  have hvalid : Utf8.valid mixedText = true := by decide +kernel
  obtain ⟨horder, hfound, hwithin⟩ := positions_identify_offsets hvalid
  exact ⟨hvalid, horder 3 8 (by decide) (by decide) (by decide), hfound 8 (by decide),
    hwithin 3 8 1 9 (by decide) (by decide) (by decide) (by decide) (by decide) (by decide)⟩

end SolidityAst.Source
