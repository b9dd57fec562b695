import Mathlib.Data.List.Basic
import SolidityAst.Proofs.Solc.Ranking
import SolidityAst.Proofs.Text.Fields
import SolidityAst.Solc.Pragma

/-!
Releases: versions of three numbers, such as `0.8.26`.

A version that a source asks for is always a release, whichever constraint it comes from.  A release starts and
ends with a digit, so nothing of it is dropped when it is normalized.
-/
namespace SolidityAst.Solc

open Text

/-- A number as it is written: one digit or more. -/
def IsNumeral (cs : List Char) : Prop := cs ≠ [] ∧ cs.all isDigit = true

instance : DecidablePred IsNumeral := fun _ => inferInstanceAs (Decidable (_ ∧ _))

/-- Three numbers with points between them. -/
def Version.IsRelease (v : String) : Prop :=
  ∃ major minor patch, IsNumeral major ∧ IsNumeral minor ∧ IsNumeral patch ∧
    v.toList = major ++ '.' :: minor ++ '.' :: patch

/-! ## The versions of constraints -/

namespace Pragma

-- What holds of all that a pattern can find holds of every match.
theorem forall_mem_matchesAfter {α : Type} {p : Pattern α} {P : α → Prop}
    (h : ∀ cs a n, p cs = some (a, n) → P a) (skip : Nat) (cs : List Char) :
    ∀ a ∈ Pattern.matchesAfter p skip cs, P a := by
  fun_induction Pattern.matchesAfter p skip cs with
  | case1 => simp
  | case2 skip c cs ih => exact ih
  | case3 c cs a n hfound ih =>
    intro b hb
    rcases List.mem_cons.mp hb with rfl | hb
    · exact h _ _ _ hfound
    · exact ih b hb
  | case4 c cs hnone ih => exact ih

theorem of_firstIn? {α : Type} {p : Pattern α} {P : α → Prop}
    (h : ∀ cs a n, p cs = some (a, n) → P a) {cs : List Char} {a : α}
    (hfirst : Pattern.firstIn? p cs = some a) : P a := by
  fun_induction Pattern.firstIn? p cs with
  | case1 => cases hfirst
  | case2 c cs b n hfound =>
    obtain rfl := Option.some.inj hfirst
    exact h _ _ _ hfound
  | case3 c cs hnone ih => exact ih hfirst

theorem isNumeral_takeWhile {cs : List Char} (h : cs.takeWhile isDigit ≠ []) :
    IsNumeral (cs.takeWhile isDigit) :=
  ⟨h, List.all_takeWhile⟩

/-- A literal whose parts are numbers. -/
structure Literal.IsNumeric (l : Literal) : Prop where
  major : IsNumeral l.major
  minor : IsNumeral l.minor
  patch : ∀ cs ∈ l.patch, IsNumeral cs

theorem isNumeric_of_literal (cs : List Char) (l : Literal) (n : Nat) (h : literal cs = some (l, n)) :
    l.IsNumeric := by
  unfold literal at h
  dsimp only at h
  split at h
  · rename_i hmajor hpoint
    split at h
    · cases h
    · rename_i hminor hsecond
      have hmajor' : IsNumeral (cs.takeWhile isDigit) := isNumeral_takeWhile (by rw [hmajor]; simp)
      have hminor' := isNumeral_takeWhile (by rw [hminor]; simp)
      split at h
      · obtain ⟨rfl, -⟩ := Prod.mk.inj (Option.some.inj h)
        exact ⟨hmajor', hminor', fun _ hpatch => nomatch hpatch⟩
      · rename_i hpatch
        obtain ⟨rfl, -⟩ := Prod.mk.inj (Option.some.inj h)
        refine ⟨hmajor', hminor', fun patch hmem => ?_⟩
        obtain rfl := Option.some.inj hmem
        exact isNumeral_takeWhile (by simpa using hpatch)
    · rename_i hminor _
      obtain ⟨rfl, -⟩ := Prod.mk.inj (Option.some.inj h)
      exact ⟨isNumeral_takeWhile (by rw [hmajor]; simp), isNumeral_takeWhile (by rw [hminor]; simp),
        fun _ hpatch => nomatch hpatch⟩
  · cases h

-- A missing patch number is written as zero.
theorem Literal.IsNumeric.isRelease {l : Literal} (h : l.IsNumeric) : Version.IsRelease l.version := by
  refine ⟨l.major, l.minor, l.patch.getD ['0'], h.major, h.minor, ?_, String.toList_ofList⟩
  cases hpatch : l.patch with
  | none => decide
  | some cs => exact h.patch cs hpatch

theorem isNumeric_of_literalAfterBlanks {cs : List Char} {l : Literal} {n : Nat}
    (h : literalAfterBlanks cs = some (l, n)) : l.IsNumeric := by
  obtain ⟨⟨l', n'⟩, hl, heq⟩ := Option.map_eq_some_iff.mp h
  obtain ⟨rfl, -⟩ := Prod.mk.inj heq
  exact isNumeric_of_literal _ _ _ hl

theorem isNumeric_of_upperBound (cs : List Char) (u : UpperBound) (n : Nat)
    (h : upperBound cs = some (u, n)) : u.bound.IsNumeric := by
  unfold upperBound at h
  split at h
  · obtain ⟨⟨l, m⟩, hl, heq⟩ := Option.map_eq_some_iff.mp h
    obtain ⟨rfl, -⟩ := Prod.mk.inj heq
    exact isNumeric_of_literalAfterBlanks hl
  · obtain ⟨⟨l, m⟩, hl, heq⟩ := Option.map_eq_some_iff.mp h
    obtain ⟨rfl, -⟩ := Prod.mk.inj heq
    exact isNumeric_of_literalAfterBlanks hl
  · cases h

theorem isRelease_of_lastRelease? {n : Nat} {v : String} (h : lastRelease? n = some v) :
    Version.IsRelease v := by
  unfold lastRelease? at h
  split at h
  · obtain rfl := Option.some.inj h
    exact ⟨['0'], ['4'], ['2', '6'], by decide⟩
  · obtain rfl := Option.some.inj h
    exact ⟨['0'], ['5'], ['1', '7'], by decide⟩
  · obtain rfl := Option.some.inj h
    exact ⟨['0'], ['6'], ['1', '2'], by decide⟩
  · obtain rfl := Option.some.inj h
    exact ⟨['0'], ['7'], ['6'], by decide⟩
  · cases h

theorem UpperBound.isRelease {u : UpperBound} (hu : u.bound.IsNumeric) {v : String}
    (h : u.version? = some v) : Version.IsRelease v := by
  unfold UpperBound.version? at h
  split at h
  · obtain rfl := Option.some.inj h
    exact hu.isRelease
  · split at h
    · split at h
      · cases h
      · exact isRelease_of_lastRelease? h
    · cases h

theorem isRelease_of_mem_candidates {constraint : List Char} {v : String}
    (h : v ∈ candidates constraint) : Version.IsRelease v := by
  unfold candidates at h
  split at h
  · rename_i w hpick
    obtain rfl := List.mem_singleton.mp h
    obtain ⟨u, hfirst, hversion⟩ := Option.bind_eq_some_iff.mp hpick
    exact UpperBound.isRelease (of_firstIn? isNumeric_of_upperBound hfirst) hversion
  · obtain ⟨l, hl, rfl⟩ := List.mem_map.mp h
    exact (forall_mem_matchesAfter isNumeric_of_literal 0 _ l hl).isRelease

/-- A source asks for nothing but releases. -/
theorem isRelease_of_version? {source : Bytes} {v : String} (h : version? source = some v) :
    Version.IsRelease v := by
  obtain ⟨constraint, -, hv⟩ := List.mem_flatMap.mp (highest?_eq_some_iff.mp h).mem
  exact isRelease_of_mem_candidates hv

end Pragma

/-! ## Normalizing a release -/

namespace Version

theorem isBlank_eq_false_of_isDigit {c : Char} (h : isDigit c = true) : isBlank c = false := by
  simp only [isDigit, Bool.and_eq_true, decide_eq_true_eq] at h
  have hlow : 48 ≤ c.toNat := h.1
  have hhigh : c.toNat ≤ 57 := h.2
  simp only [isBlank, Bool.or_eq_false_iff, Bool.and_eq_false_iff, decide_eq_false_iff_not, beq_eq_false_iff_ne]
  omega

theorem dropStart_of_ne {p c : Char} (ps cs : List Char) (h : p ≠ c) :
    dropStart (p :: ps) (c :: cs) = c :: cs := by
  rw [dropStart, afterStart?, if_neg h, Option.getD_none]

theorem trimChars_of_ends {a b : Char} (cs : List Char) (ha : isDigit a = true) (hb : isDigit b = true) :
    trimChars (a :: (cs ++ [b])) = a :: (cs ++ [b]) := by
  have hfront : (a :: (cs ++ [b])).dropWhile isBlank = a :: (cs ++ [b]) := by
    rw [List.dropWhile_cons_of_neg (by rw [isBlank_eq_false_of_isDigit ha]; simp)]
  have hback : (a :: (cs ++ [b])).reverse.dropWhile isBlank = (a :: (cs ++ [b])).reverse := by
    rw [← List.cons_append, List.reverse_append, List.reverse_singleton, List.singleton_append,
      List.dropWhile_cons_of_neg (by rw [isBlank_eq_false_of_isDigit hb]; simp)]
  rw [trimChars, trimWhile, hfront, dropEndWhile, hback, List.reverse_reverse]

theorem IsRelease.ends {v : String} (h : IsRelease v) :
    ∃ a cs b, v.toList = a :: (cs ++ [b]) ∧ isDigit a = true ∧ isDigit b = true := by
  obtain ⟨major, minor, patch, ⟨hmajor, hfirst⟩, -, ⟨hpatch, hlast⟩, hv⟩ := h
  obtain ⟨a, major, rfl⟩ := List.exists_cons_of_ne_nil hmajor
  have hpatch' := List.dropLast_concat_getLast hpatch
  refine ⟨a, major ++ '.' :: minor ++ '.' :: patch.dropLast, patch.getLast hpatch, ?_, ?_, ?_⟩
  · rw [hv]
    nth_rewrite 1 [← hpatch']
    simp
  · exact List.all_eq_true.mp hfirst a List.mem_cons_self
  · exact List.all_eq_true.mp hlast _ (List.getLast_mem hpatch)

-- No comparator starts with a digit.
theorem foldl_comparators {a : Char} (ha : isDigit a = true) (cs : List Char) :
    comparators.foldl (fun cs p => dropStart p.toList cs) (a :: cs) = a :: cs := by
  have hne : ∀ {p : Char}, isDigit p = false → p ≠ a := by
    rintro p hp rfl
    rw [ha] at hp
    cases hp
  simp only [comparators, List.foldl_cons, List.foldl_nil]
  change dropStart ['='] (dropStart ['~'] (dropStart ['<'] (dropStart ['>'] (dropStart ['<', '=']
    (dropStart ['>', '='] (dropStart ['^'] (a :: cs))))))) = a :: cs
  rw [dropStart_of_ne _ _ (hne (by decide)), dropStart_of_ne _ _ (hne (by decide)),
    dropStart_of_ne _ _ (hne (by decide)), dropStart_of_ne _ _ (hne (by decide)),
    dropStart_of_ne _ _ (hne (by decide)), dropStart_of_ne _ _ (hne (by decide)),
    dropStart_of_ne _ _ (hne (by decide))]

theorem IsRelease.normalize_eq {v : String} (h : IsRelease v) : normalize v = v := by
  obtain ⟨a, cs, b, hv, ha, hb⟩ := h.ends
  have hletter : 'v' ≠ a := by
    rintro rfl
    cases ha
  unfold normalize
  dsimp only
  rw [hv, trimChars_of_ends cs ha hb, dropStart_of_ne _ _ hletter, foldl_comparators ha,
    trimChars_of_ends cs ha hb, ← hv, String.ofList_toList]

end Version

end SolidityAst.Solc
