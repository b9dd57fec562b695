import SolidityAst.Proofs.Solc.Ranking
import SolidityAst.Proofs.Text.Numeral

/-!
Versions are preordered by their numbers.

What a component counts as is told rule by rule, for every text.  Each version has one triple of numbers, and to
compare versions is to compare their triples lexicographically.  So versions form a total preorder, and what can
be told to stop after parsing is closed upwards in it.
-/
namespace SolidityAst.Solc.Version

open Text Numeral

/-! ## Components -/

/-- What a component counts as: a numeral as its value or the nearest bound, and so does what starts with a numeral
of more than 64 bits; anything else counts as zero. -/
inductive CountsAs : List Char → Int → Prop
  | numeral {cs : List Char} {n : Int} (h : Denotes cs n) : CountsAs cs (max Word.least (min n Word.greatest))
  | overlong {front : List Char} {n : Int} (h : Denotes front n) (hlarge : Word.size ≤ n.natAbs)
      (back : List Char) : CountsAs (front ++ back) (max Word.least (min n Word.greatest))
  | malformed {cs : List Char} (h : ∀ n, ¬ Denotes cs n) (hfits : ¬ Overflows cs) : CountsAs cs 0

theorem CountsAs.component_eq {s : String} {n : Int} (h : CountsAs s.toList n) : component s = n := by
  rw [component, decimal]
  generalize s.toList = cs at h
  cases h with
  | numeral h =>
    have hread := h.signedIn_append (.inl rfl)
    rw [List.append_nil] at hread
    rw [hread, nearestOr_nearest]
  | overlong h hlarge back => rw [h.signedIn_append (.inr hlarge), nearestOr_nearest]
  | malformed h hfits => rw [signedIn_eq_malformed h hfits, Reading.nearestOr]

theorem exists_countsAs (cs : List Char) : ∃ n, CountsAs cs n := by
  by_cases hnumeral : ∃ n, Denotes cs n
  · obtain ⟨n, hn⟩ := hnumeral
    exact ⟨_, .numeral hn⟩
  by_cases hoverflow : Overflows cs
  · obtain ⟨front, back, n, rfl, hfront, hlarge⟩ := hoverflow
    exact ⟨_, .overlong hfront hlarge back⟩
  · exact ⟨0, .malformed (not_exists.mp hnumeral) hoverflow⟩

theorem countsAs_iff {s : String} {n : Int} : CountsAs s.toList n ↔ component s = n := by
  refine ⟨fun h => h.component_eq, ?_⟩
  rintro rfl
  obtain ⟨n, hn⟩ := exists_countsAs s.toList
  rwa [hn.component_eq]

/-! ## Triples -/

/-- The number at a place of a version: what the component there counts as, or zero where there is none. -/
def NumberAt (v : String) (i : Nat) (n : Int) : Prop :=
  match (fields '.' v)[i]? with
  | some s => CountsAs s.toList n
  | none => n = 0

/-- The numbers at the first three places of a version, the first of them weighing most. -/
def HasNumbers (v : String) (k : Int ×ₗ Int ×ₗ Int) : Prop :=
  ∃ x y z, NumberAt v 0 x ∧ NumberAt v 1 y ∧ NumberAt v 2 z ∧ k = toLex (x, toLex (y, z))

theorem numberAt_iff {v : String} {i : Nat} {n : Int} :
    NumberAt v i n ↔ ((fields '.' v).map component).getD i 0 = n := by
  rw [NumberAt, List.getD_eq_getElem?_getD, List.getElem?_map]
  cases (fields '.' v)[i]? with
  | none => exact eq_comm
  | some s => exact countsAs_iff

theorem hasNumbers_iff {v : String} {k : Int ×ₗ Int ×ₗ Int} : HasNumbers v k ↔ rank v = k := by
  unfold HasNumbers
  simp only [numberAt_iff]
  constructor
  · rintro ⟨x, y, z, rfl, rfl, rfl, rfl⟩
    rfl
  · rintro rfl
    exact ⟨_, _, _, rfl, rfl, rfl, rfl⟩

/-! ## Order -/

variable {v w : String}

theorem cmp_eq_eq_iff : cmp v w = .eq ↔ rank v = rank w := by
  have hlt := @cmp_eq_lt_iff v w
  have hgt := @cmp_eq_gt_iff v w
  cases hcmp : cmp v w with
  | lt =>
    simp only [reduceCtorEq, false_iff]
    exact (hlt.mp hcmp).ne
  | gt =>
    simp only [reduceCtorEq, false_iff]
    exact (hgt.mp hcmp).ne'
  | eq =>
    rw [hcmp] at hlt hgt
    simp only [reduceCtorEq, false_iff, not_lt] at hlt hgt
    exact iff_of_true rfl (le_antisymm hgt hlt)

theorem cmp_ne_gt_iff : cmp v w ≠ .gt ↔ rank v ≤ rank w := by
  rw [ne_eq, cmp_eq_gt_iff, not_lt]

theorem cmp_swap (v w : String) : cmp w v = (cmp v w).swap := by
  cases hcmp : cmp v w with
  | lt => exact cmp_eq_gt_iff.mpr (cmp_eq_lt_iff.mp hcmp)
  | eq => exact cmp_eq_eq_iff.mpr (cmp_eq_eq_iff.mp hcmp).symm
  | gt => exact cmp_eq_lt_iff.mpr (cmp_eq_gt_iff.mp hcmp)

theorem supportsStopAfter_iff :
    supportsStopAfter v = true ↔ Version.normalize v = "" ∨ rank stopAfterSince ≤ rank (Version.normalize v) := by
  unfold supportsStopAfter
  simp only [Bool.or_eq_true, beq_iff_eq, bne_iff_ne, ← cmp_ne_lt_iff]

/-- Versions are compared as their triples of numbers are compared lexicographically.  So comparing the other way
round gives the opposite, the order is transitive, and with a version that is known every later one can be told to
stop after parsing. -/
theorem cmp_total_preorder (a b c : String) :
    (∃! k, HasNumbers a k) ∧
      (∀ k l, HasNumbers a k → HasNumbers b l →
        (cmp a b = .lt ↔ k < l) ∧ (cmp a b = .eq ↔ k = l) ∧ (cmp a b = .gt ↔ l < k)) ∧
      cmp b a = (cmp a b).swap ∧
      (cmp a b ≠ .gt → cmp b c ≠ .gt → cmp a c ≠ .gt) ∧
      (supportsStopAfter a = true → Version.normalize a ≠ "" →
        cmp (Version.normalize a) (Version.normalize b) ≠ .gt → supportsStopAfter b = true) := by
  refine ⟨⟨rank a, hasNumbers_iff.mpr rfl, fun k hk => (hasNumbers_iff.mp hk).symm⟩, fun k l hk hl => ?_,
    cmp_swap a b, fun hab hbc => ?_, fun ha hknown hab => ?_⟩
  · obtain rfl := hasNumbers_iff.mp hk
    obtain rfl := hasNumbers_iff.mp hl
    exact ⟨cmp_eq_lt_iff, cmp_eq_eq_iff, cmp_eq_gt_iff⟩
  · exact cmp_ne_gt_iff.mpr (le_trans (cmp_ne_gt_iff.mp hab) (cmp_ne_gt_iff.mp hbc))
  · have hsince := (supportsStopAfter_iff.mp ha).resolve_left hknown
    exact supportsStopAfter_iff.mpr (.inr (le_trans hsince (cmp_ne_gt_iff.mp hab)))

-- A component that is missing, one with a suffix and one past 64 bits.
theorem cmp_total_preorder_irregular :
    cmp "v0.8" "0.8.0-nightly" ≠ .gt ∧ cmp "0.8.0-nightly" "0.8.99999999999999999999" ≠ .gt ∧
      cmp "v0.8" "0.8.99999999999999999999" ≠ .gt ∧ supportsStopAfter ">=0.8" = true ∧
      supportsStopAfter "0.8.0-nightly" = true := by
  obtain ⟨-, -, -, htrans, -⟩ := cmp_total_preorder "v0.8" "0.8.0-nightly" "0.8.99999999999999999999"
  obtain ⟨-, -, -, -, hstop⟩ := cmp_total_preorder ">=0.8" "0.8.0-nightly" ""
  have hfirst : cmp "v0.8" "0.8.0-nightly" ≠ .gt := by decide +kernel
  have hsecond : cmp "0.8.0-nightly" "0.8.99999999999999999999" ≠ .gt := by decide +kernel
  have hknown : supportsStopAfter ">=0.8" = true := by decide +kernel
  exact ⟨hfirst, hsecond, htrans hfirst hsecond, hknown, hstop hknown (by decide +kernel) (by decide +kernel)⟩

/-- A component that is no numeral need not count as zero: reading ends at the digit with which the value leaves
64 bits, before the letter. -/
theorem cmp_overlong_malformed :
    fields '.' "99999999999999999999x" = ["99999999999999999999x"] ∧
      (∀ n, ¬ Denotes "99999999999999999999x".toList n) ∧ cmp "99999999999999999999x" "0" = .gt := by
  refine ⟨by decide +kernel, fun n h => ?_, by decide +kernel⟩
  obtain ⟨-, hdigits, -⟩ := denotes_iff.mp h
  exact absurd (hdigits 'x' (by decide +kernel)) (by decide)

end SolidityAst.Solc.Version
