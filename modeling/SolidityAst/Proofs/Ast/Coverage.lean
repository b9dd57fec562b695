import SolidityAst.Proofs.Ast.Annotation
import SolidityAst.Proofs.Source.Order
import SolidityAst.Proofs.Source.Range

/-!
Which part of the source a location covers.

Both ends of a range are moved into the source.  A start past the end of the source is moved to that end,
and so is the end of the range while it is a signed word.  An end that has wrapped around is negative: it is
moved to the very start of the source, before the start of the range.
-/
namespace SolidityAst.Source

open Text

namespace Range

variable {source : Bytes} {r : Range}

theorem position_stop_of_lt (h : r.start + r.length < Word.half) :
    (LineIndex.ofSource source).position r.stop =
      (LineIndex.ofSource source).position (min (r.start + r.length) source.length : Nat) := by
  rw [stop_of_lt h, LineIndex.position_natCast]

/-- The end of a range is where the exact sum puts it, unless the sum has wrapped around. -/
theorem position_stop_eq_iff (hstart : r.start < Word.half) (hlength : r.length < Word.half) :
    (LineIndex.ofSource source).position r.stop =
        (LineIndex.ofSource source).position (min (r.start + r.length) source.length : Nat) ↔
      r.start + r.length < Word.half ∨ source = [] := by
  by_cases hsum : r.start + r.length < Word.half
  · exact iff_of_true (position_stop_of_lt hsum) (.inl hsum)
  · rw [LineIndex.position_of_neg (stop_lt_zero (Nat.not_lt.mp hsum) hstart hlength), eq_comm,
      LineIndex.position_eq_origin_iff (Nat.min_le_right _ _), or_iff_right hsum,
      ← List.length_eq_zero_iff]
    dsimp only [Word.half] at hsum
    omega

/-- On character boundaries a range ends before it starts exactly when its end has wrapped around. -/
theorem position_start_le_stop_iff (hstart : r.start < Word.half) (hlength : r.length < Word.half)
    (hvalid : Utf8.valid source = true) (hfrom : Utf8.isBoundary source (min r.start source.length) = true)
    (huntil : Utf8.isBoundary source (min (r.start + r.length) source.length) = true) :
    (LineIndex.ofSource source).position r.start ≤ (LineIndex.ofSource source).position r.stop ↔
      r.start + r.length < Word.half ∨ source = [] := by
  rw [LineIndex.position_natCast]
  by_cases hsum : r.start + r.length < Word.half
  · refine iff_of_true ?_ (.inl hsum)
    rw [position_stop_of_lt hsum]
    exact position_le hvalid hfrom huntil (by omega)
  · rw [LineIndex.position_of_neg (stop_lt_zero (Nat.not_lt.mp hsum) hstart hlength),
      Position.le_origin_iff (Nat.succ_pos _), LineIndex.position_eq_origin_iff (Nat.min_le_right _ _),
      or_iff_right hsum, ← List.length_eq_zero_iff]
    dsimp only [Word.half] at hsum hlength
    omega

end Range

end SolidityAst.Source

namespace SolidityAst.Ast

open Source Text Json

/-- The location that an object gets starts at the start of its range.  It ends where the range ends, and
on character boundaries not before its start, exactly when the two numbers of the range add up to a signed
word or the source is empty; otherwise it ends at the very start of the source. -/
theorem location_covers_range_iff (source : Bytes) {t : Json} (path : List Step) {ms : List (String × Json)}
    {s : String} {r : Range} (hnode : t.get? path = some (.object ms))
    (hloc : Assoc.find? "loc" ms = none) (hsrc : Assoc.find? "src" ms = some (.string s))
    (hrange : Range.parse? s = some r) :
    let index := LineIndex.ofSource source
    let sum := r.start + r.length
    ∃ l : Location, (annotate index t).get? (path ++ [.member "loc"]) = some l.toJson ∧
      l.start = index.position (min r.start source.length : Nat) ∧
      (l.finish = index.position (min sum source.length : Nat) ↔ sum < Word.half ∨ source = []) ∧
      (Word.half ≤ sum → l.finish = .origin) ∧
      (Utf8.valid source = true → Utf8.isBoundary source (min r.start source.length) = true →
        Utf8.isBoundary source (min sum source.length) = true →
          (l.start ≤ l.finish ↔ sum < Word.half ∨ source = [])) := by
  intro index sum
  obtain ⟨hstart, hlength⟩ := Range.lt_half_of_parse? hrange
  refine ⟨index.location r.start r.stop,
    get?_location hnode hloc (rangeOf?_eq_some.mpr ⟨s, hsrc, hrange⟩),
    LineIndex.position_natCast source r.start, Range.position_stop_eq_iff hstart hlength, fun hwrapped => ?_,
    fun hvalid hfrom huntil => Range.position_start_le_stop_iff hstart hlength hvalid hfrom huntil⟩
  exact LineIndex.position_of_neg (Range.stop_lt_zero hwrapped hstart hlength)

/-- An object whose range ends past every signed word. -/
def longRange : Json := .object [("src", .string "1:9223372036854775807:0")]

theorem parse?_longRange : Range.parse? "1:9223372036854775807:0" = some ⟨1, 9223372036854775807⟩ := by
  decide +kernel

theorem location_covers_range_iff_longRange :
    ∃ l : Location, (annotate (.ofSource [0x61, 0x62]) longRange).get? [.member "loc"] = some l.toJson ∧
      l.start = ⟨1, 1⟩ ∧ l.finish = .origin ∧ ¬ l.start ≤ l.finish := by
  obtain ⟨l, hl, hstart, -, hwrapped, horder⟩ :=
    location_covers_range_iff [0x61, 0x62] (t := longRange) [] rfl rfl rfl parse?_longRange
  refine ⟨l, hl, hstart.trans (by decide +kernel), hwrapped (by decide), ?_⟩
  rw [horder (by decide +kernel) (by decide +kernel) (by decide +kernel)]
  decide

theorem location_misses_range :
    ¬ ∀ (source : Bytes) (t : Json) (path : List Step) (ms : List (String × Json)) (s : String) (r : Range),
      t.get? path = some (.object ms) → Assoc.find? "loc" ms = none →
        Assoc.find? "src" ms = some (.string s) → Range.parse? s = some r →
          (annotate (.ofSource source) t).get? (path ++ [.member "loc"]) =
            some (Location.toJson
              ⟨(LineIndex.ofSource source).position (min r.start source.length : Nat),
                (LineIndex.ofSource source).position (min (r.start + r.length) source.length : Nat)⟩) := by
  intro h
  have hexact := h [0x61, 0x62] longRange [] _ _ _ rfl rfl rfl parse?_longRange
  rw [get?_location rfl rfl (rangeOf?_eq_some.mpr ⟨_, rfl, parse?_longRange⟩), Option.some.injEq] at hexact
  -- The two locations differ in the column at which they end.
  have hfinish : (LineIndex.ofSource [0x61, 0x62]).position (Range.stop ⟨1, 9223372036854775807⟩) = ⟨1, 0⟩ := by
    decide +kernel
  have hfinish' : (LineIndex.ofSource [0x61, 0x62]).position
      (min (1 + 9223372036854775807) [(0x61 : UInt8), 0x62].length : Nat) = ⟨1, 2⟩ := by
    decide +kernel
  have hcolumn := congrArg (fun v => v.get? [.member "end", .member "column"]) hexact
  dsimp only [LineIndex.location] at hcolumn
  rw [hfinish, hfinish'] at hcolumn
  have hliteral : toString (0 : Int) = toString (2 : Int) := Json.number.inj (Option.some.inj hcolumn)
  exact absurd hliteral (by decide)

end SolidityAst.Ast
