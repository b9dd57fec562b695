import SolidityAst.Proofs.Text.Fields
import SolidityAst.Proofs.Text.Numeral
import SolidityAst.Source.Range

/-!
The texts of source ranges, and where ranges end.

A text is one of a range when its first two fields are numerals of signed words that are not negative, in whatever
way these are written and whatever follows.  The sum of two such numbers as words is their sum, or it has wrapped
around and is negative.
-/
namespace SolidityAst.Source.Range

open Text Numeral

variable {s : String} {r : Range}

/-! ## Texts -/

/-- The first two fields of a text are numerals of the two numbers of a range, and both numbers are words. -/
def IsTextOf (s : String) (r : Range) : Prop :=
  ∃ first second rest, fields ':' s = first :: second :: rest ∧
    Denotes first.toList r.start ∧ Denotes second.toList r.length ∧ r.start < Word.half ∧ r.length < Word.half

theorem IsTextOf.colon_mem (h : IsTextOf s r) : ':' ∈ s.toList := by
  obtain ⟨first, second, rest, hfields, -⟩ := h
  by_cases hcolon : ':' ∈ s.toList
  · exact hcolon
  · rw [fields_of_notMem hcolon] at hfields
    cases hfields

theorem decimal_eq_natCast_iff {n : Nat} : decimal s = .value n ↔ Denotes s.toList n ∧ n < Word.half := by
  rw [decimal_eq_value_iff]
  dsimp only [Word.least, Word.greatest, Word.half]
  exact and_congr_right fun _ => by omega

theorem parse?_eq_some_iff : parse? s = some r ↔ IsTextOf s r := by
  unfold parse? IsTextOf
  constructor
  · intro h
    split at h
    · rename_i first second rest hfields
      split at h
      · rename_i start length hstart hlength
        split at h
        · rename_i hnonneg
          simp only [Bool.and_eq_true, decide_eq_true_eq] at hnonneg
          obtain rfl := Option.some.inj h
          rw [← Int.toNat_of_nonneg hnonneg.1] at hstart
          rw [← Int.toNat_of_nonneg hnonneg.2] at hlength
          obtain ⟨hfirst, hfirst_lt⟩ := decimal_eq_natCast_iff.mp hstart
          obtain ⟨hsecond, hsecond_lt⟩ := decimal_eq_natCast_iff.mp hlength
          exact ⟨first, second, rest, hfields, hfirst, hsecond, hfirst_lt, hsecond_lt⟩
        · cases h
      · cases h
    · cases h
  · rintro ⟨first, second, rest, hfields, hfirst, hsecond, hfirst_lt, hsecond_lt⟩
    rw [hfields]
    dsimp only
    rw [decimal_eq_natCast_iff.mpr ⟨hfirst, hfirst_lt⟩, decimal_eq_natCast_iff.mpr ⟨hsecond, hsecond_lt⟩]
    simp

theorem lt_half_of_parse? (h : parse? s = some r) : r.start < Word.half ∧ r.length < Word.half := by
  obtain ⟨-, -, -, -, -, -, hlt⟩ := parse?_eq_some_iff.mp h
  exact hlt

-- A numeral has no colon in it.
theorem fields_numeral {n : Int} (h : Denotes s.toList n) : fields ':' s = [s] := by
  refine fields_of_notMem fun hcolon => ?_
  have hdigits : ∀ ds : List Char, (∀ c ∈ ds, isDigit c = true) → ':' ∉ ds := fun ds hds hmem =>
    absurd (hds ':' hmem) (by decide)
  generalize s.toList = cs at h hcolon
  cases h with
  | bare _ hds => exact hdigits _ hds hcolon
  | plus _ hds => exact hdigits _ hds (by simpa using hcolon)
  | minus _ hds => exact hdigits _ hds (by simpa using hcolon)

theorem isTextOf_printed {start length : Nat} (hstart : start < Word.half) (hlength : length < Word.half)
    (rest : String) : IsTextOf (toString start ++ ":" ++ toString length ++ ":" ++ rest) ⟨start, length⟩ := by
  have hfirst : Denotes (toString start).toList start := denotes_toString start
  have hsecond : Denotes (toString length).toList length := denotes_toString length
  refine ⟨_, _, fields ':' rest, ?_, hfirst, hsecond, hstart, hlength⟩
  have hcolon : ":" = String.singleton ':' := rfl
  rw [hcolon, fields_append_sep, fields_append_sep, fields_numeral hfirst, fields_numeral hsecond]
  rfl

theorem numbers_of_isTextOf (h : IsTextOf s r) : numbers s = (r.start, r.length, true) := by
  rw [numbers, parse?_eq_some_iff.mpr h]

/-- A range is read exactly from the texts with a colon whose first two fields are numerals of words that are not
negative, and it has the values of these whatever follows.  All other texts give zeros.  Two words that are printed
with a colon behind each are read back before every text. -/
theorem range_of_leading_numerals (s : String) :
    (∀ r, parse? s = some r ↔ ':' ∈ s.toList ∧ IsTextOf s r) ∧
      (∀ r, IsTextOf s r → numbers s = (r.start, r.length, true)) ∧
      ((∀ r, ¬ IsTextOf s r) → numbers s = (0, 0, false)) ∧
      ∀ start length, start < Word.half → length < Word.half →
        numbers (toString start ++ ":" ++ toString length ++ ":" ++ s) = (start, length, true) := by
  refine ⟨fun r => ?_, fun r h => numbers_of_isTextOf h, fun hnone => ?_, fun start length hstart hlength => ?_⟩
  · rw [parse?_eq_some_iff]
    exact ⟨fun h => ⟨h.colon_mem, h⟩, fun h => h.2⟩
  · have hparse : parse? s = none :=
      Option.eq_none_iff_forall_ne_some.mpr fun r hr => hnone r (parse?_eq_some_iff.mp hr)
    rw [numbers, hparse]
  · exact numbers_of_isTextOf (isTextOf_printed hstart hlength s)

-- A zero with a minus sign, a plus sign before zeros, and the greatest word before a text that is a range itself.
theorem range_of_leading_numerals_signs :
    numbers "-0:+007" = (0, 7, true) ∧ numbers "9223372036854775807:0:-0:+007" = (9223372036854775807, 0, true) := by
  obtain ⟨-, hnumbers, -, hprinted⟩ := range_of_leading_numerals "-0:+007"
  have hzero : Denotes "-0".toList 0 := @Denotes.minus ['0'] (by decide) (List.all_eq_true.mp (by decide))
  have hseven : Denotes "+007".toList 7 :=
    @Denotes.plus ['0', '0', '7'] (by decide) (List.all_eq_true.mp (by decide))
  have htext : IsTextOf "-0:+007" ⟨0, 7⟩ := ⟨"-0", "+007", [], by decide, hzero, hseven, by decide, by decide⟩
  have hgreatest :
      "9223372036854775807:0:-0:+007" = toString 9223372036854775807 ++ ":" ++ toString 0 ++ ":" ++ "-0:+007" := by
    decide +kernel
  refine ⟨hnumbers _ htext, ?_⟩
  rw [hgreatest]
  exact hprinted 9223372036854775807 0 (by decide) (by decide)

/-! ## Ends -/

/-- The end of a range is the sum of its numbers as signed words. -/
theorem stop_eq_toInt (r : Range) : r.stop = (Int64.ofNat r.start + Int64.ofNat r.length).toInt := by
  rw [Int64.toInt_add, Int64.toInt_ofNat', Int64.toInt_ofNat']
  exact (Int.bmod_add_bmod.trans Int.add_bmod_bmod).symm

theorem stop_of_lt (h : r.start + r.length < Word.half) : r.stop = (r.start + r.length : Nat) := by
  unfold stop
  dsimp only [Word.half, Word.size] at h ⊢
  rw [Int.natCast_add]
  exact Int.bmod_eq_of_le (by omega) (by omega)

theorem stop_lt_zero (h : Word.half ≤ r.start + r.length) (hstart : r.start < Word.half)
    (hlength : r.length < Word.half) : r.stop < 0 := by
  unfold stop
  dsimp only [Word.half, Word.size] at h hstart hlength ⊢
  rewrite [Int.bmod_def]
  omega

end SolidityAst.Source.Range
