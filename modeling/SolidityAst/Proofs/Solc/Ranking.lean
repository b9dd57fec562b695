import Mathlib.Algebra.Order.Ring.Int
import Mathlib.Data.Prod.Lex
import SolidityAst.Solc.Pragma

/-!
Versions by rank.

The rank of a version is the triple of its numbers in lexicographic order, so versions of one rank may be written
in different ways.  Of several versions the first of the highest rank is kept, and to keep it of two lists is to
keep it of each and then of the two that are left.
-/
namespace SolidityAst.Solc

namespace Version

/-- The three numbers of a version, the first of them weighing most. -/
def rank (v : String) : Int ×ₗ Int ×ₗ Int :=
  toLex ((triple v).1, toLex ((triple v).2.1, (triple v).2.2))

section

variable {v w : String}

theorem cmp_eq_gt_iff : cmp v w = .gt ↔ rank w < rank v := by
  show ((compare (triple v).1 (triple w).1).then ((compare (triple v).2.1 (triple w).2.1).then
    (compare (triple v).2.2 (triple w).2.2))) = .gt ↔ _
  simp only [rank, Ordering.then_eq_gt, compare_gt_iff_gt, compare_eq_iff_eq, Prod.Lex.toLex_lt_toLex]
  omega

theorem cmp_eq_lt_iff : cmp v w = .lt ↔ rank v < rank w := by
  show ((compare (triple v).1 (triple w).1).then ((compare (triple v).2.1 (triple w).2.1).then
    (compare (triple v).2.2 (triple w).2.2))) = .lt ↔ _
  simp only [rank, Ordering.then_eq_lt, compare_lt_iff_lt, compare_eq_iff_eq, Prod.Lex.toLex_lt_toLex]

theorem later_iff : later v w = true ↔ rank w < rank v := by
  rw [later, beq_iff_eq, cmp_eq_gt_iff]

theorem cmp_ne_lt_iff : cmp v w ≠ .lt ↔ rank w ≤ rank v := by
  rw [ne_eq, cmp_eq_lt_iff, not_lt]

end

end Version

namespace Pragma

open Version

/-- The first of the versions that rank at least as high as every one of them. -/
def FirstHighest (vs : List String) (v : String) : Prop :=
  ∃ before after, vs = before ++ v :: after ∧ (∀ w ∈ vs, Version.cmp v w ≠ .lt) ∧
    ∀ w ∈ before, ∃ u ∈ vs, Version.cmp w u = .lt

section

variable {vs ws : List String} {v w : String}

-- All that stands before it ranks lower, and nothing behind it ranks higher.
theorem firstHighest_iff : FirstHighest vs v ↔ ∃ before after, vs = before ++ v :: after ∧
    (∀ w ∈ before, rank w < rank v) ∧ ∀ w ∈ after, rank w ≤ rank v := by
  constructor
  · intro h
    obtain ⟨before, after, rfl, hall, hbefore⟩ := h
    refine ⟨before, after, rfl, fun w hw => ?_, fun w hw => ?_⟩
    · obtain ⟨u, hu, hlower⟩ := hbefore w hw
      exact lt_of_lt_of_le (cmp_eq_lt_iff.mp hlower) (cmp_ne_lt_iff.mp (hall u hu))
    · exact cmp_ne_lt_iff.mp (hall w (by simp [hw]))
  · intro h
    obtain ⟨before, after, rfl, hbefore, hafter⟩ := h
    refine ⟨before, after, rfl, fun w hw => cmp_ne_lt_iff.mpr ?_, fun w hw => ?_⟩
    · rcases List.mem_append.mp hw with hw | hw
      · exact le_of_lt (hbefore w hw)
      · rcases List.mem_cons.mp hw with rfl | hw
        · exact le_refl _
        · exact hafter w hw
    · exact ⟨v, by simp, cmp_eq_lt_iff.mpr (hbefore w hw)⟩

theorem FirstHighest.mem (h : FirstHighest vs v) : v ∈ vs := by
  obtain ⟨before, after, rfl, -⟩ := h
  simp

theorem FirstHighest.rank_le (h : FirstHighest vs v) (hw : w ∈ vs) : rank w ≤ rank v := by
  obtain ⟨before, after, -, hall, -⟩ := h
  exact cmp_ne_lt_iff.mp (hall w hw)

theorem FirstHighest.singleton (v : String) : FirstHighest [v] v :=
  firstHighest_iff.mpr ⟨[], [], rfl, by simp, by simp⟩

/-! ## Two lists -/

theorem FirstHighest.append_left (hv : FirstHighest vs v) (hw : ∀ w ∈ ws, rank w ≤ rank v) :
    FirstHighest (vs ++ ws) v := by
  obtain ⟨before, after, rfl, hbefore, hafter⟩ := firstHighest_iff.mp hv
  refine firstHighest_iff.mpr ⟨before, after ++ ws, by simp, hbefore, fun u hu => ?_⟩
  rcases List.mem_append.mp hu with hu | hu
  · exact hafter u hu
  · exact hw u hu

theorem FirstHighest.append_right (hw : FirstHighest ws w) (hv : ∀ v ∈ vs, rank v < rank w) :
    FirstHighest (vs ++ ws) w := by
  obtain ⟨before, after, rfl, hbefore, hafter⟩ := firstHighest_iff.mp hw
  refine firstHighest_iff.mpr ⟨vs ++ before, after, by simp, fun u hu => ?_, hafter⟩
  rcases List.mem_append.mp hu with hu | hu
  · exact hv u hu
  · exact hbefore u hu

-- Of two versions with equal rank the one of the first list stays.
theorem FirstHighest.append (hv : FirstHighest vs v) (hw : FirstHighest ws w) :
    FirstHighest (vs ++ ws) (if later w v then w else v) := by
  by_cases hlater : later w v = true
  · rw [if_pos hlater]
    apply hw.append_right
    intro u hu
    exact lt_of_le_of_lt (hv.rank_le hu) (later_iff.mp hlater)
  · rw [if_neg hlater]
    apply hv.append_left
    intro u hu
    exact le_trans (hw.rank_le hu) (not_lt.mp (mt later_iff.mpr hlater))

theorem FirstHighest.unique (hv : FirstHighest vs v) (hw : FirstHighest vs w) : v = w := by
  obtain ⟨before, after, hvs, hbefore, -⟩ := firstHighest_iff.mp hv
  obtain ⟨before', after', hvs', hbefore', -⟩ := firstHighest_iff.mp hw
  -- Neither stands before the other, because it would rank lower there.
  have hnot : v ∉ before' := fun hmem => absurd (hv.rank_le hw.mem) (not_le.mpr (hbefore' v hmem))
  have hnot' : w ∉ before := fun hmem => absurd (hw.rank_le hv.mem) (not_le.mpr (hbefore w hmem))
  rcases List.append_eq_append_iff.mp (hvs.symm.trans hvs') with ⟨gap, rfl, hgap⟩ | ⟨gap, rfl, hgap⟩
  · cases gap with
    | nil => exact (List.cons.inj hgap).1
    | cons u gap =>
      obtain rfl := (List.cons.inj hgap).1
      simp at hnot
  · cases gap with
    | nil => exact (List.cons.inj hgap).1.symm
    | cons u gap =>
      obtain rfl := (List.cons.inj hgap).1
      simp at hnot'

/-! ## The running maximum -/

theorem firstHighest_foldl (vs : List String) (best : String) (before : List String)
    (h : FirstHighest before best) :
    FirstHighest (before ++ vs) (vs.foldl (fun best w => if later w best then w else best) best) := by
  induction vs generalizing best before with
  | nil => rwa [List.append_nil]
  | cons v vs ih =>
    rw [List.foldl_cons, ← List.singleton_append, ← List.append_assoc]
    exact ih _ _ (h.append (.singleton v))

theorem highest?_eq_some_iff : highest? vs = some v ↔ FirstHighest vs v := by
  cases vs with
  | nil =>
    constructor
    · intro h
      cases h
    · intro h
      exact absurd h.mem List.not_mem_nil
  | cons u us =>
    have hhighest := firstHighest_foldl us u [u] (.singleton u)
    constructor
    · intro h
      rw [← Option.some.inj h]
      exact hhighest
    · intro h
      exact congrArg some (hhighest.unique h)

@[simp] theorem highest?_eq_none_iff : highest? vs = none ↔ vs = [] := by
  cases vs with
  | nil => simp [highest?]
  | cons v vs => simp [highest?]

/-- The version that is left of two, the first of them when they rank alike. -/
def higher : Option String → Option String → Option String
  | none, w => w
  | v, none => v
  | some v, some w => some (if later w v then w else v)

theorem highest?_append (vs ws : List String) :
    highest? (vs ++ ws) = higher (highest? vs) (highest? ws) := by
  cases hv : highest? vs with
  | none => rw [highest?_eq_none_iff.mp hv, List.nil_append, higher]
  | some v =>
    cases hw : highest? ws with
    | none =>
      rw [highest?_eq_none_iff.mp hw, List.append_nil, hv]
      rfl
    | some w =>
      exact highest?_eq_some_iff.mpr ((highest?_eq_some_iff.mp hv).append (highest?_eq_some_iff.mp hw))

end

end Pragma

end SolidityAst.Solc
