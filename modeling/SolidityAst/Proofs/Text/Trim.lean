import Mathlib.Data.List.DropRight
import SolidityAst.Text.Blank

/-!
Trimming.

What is left of a text is the one part of it whose ends do not satisfy the test, while all that is before and
behind it does.
-/
namespace SolidityAst.Text

variable {p : Char → Bool} {cs mid : List Char} {c : Char}

theorem trimWhile_eq (p : Char → Bool) (cs : List Char) : trimWhile p cs = (cs.dropWhile p).rdropWhile p := rfl

theorem first_of_dropWhile (h : c ∈ (cs.dropWhile p).head?) : p c = false := by
  have hfirst := List.head?_dropWhile_not p cs
  rw [Option.mem_def.mp h] at hfirst
  exact hfirst

theorem first_trimWhile (h : c ∈ (trimWhile p cs).head?) : p c = false := by
  obtain ⟨rest, hrest⟩ := List.rdropWhile_prefix p (cs.dropWhile p)
  rw [← trimWhile_eq] at hrest
  have hhead : c ∈ (cs.dropWhile p).head? := by
    rw [← hrest, List.head?_append, Option.mem_def.mp h]
    rfl
  exact first_of_dropWhile hhead

theorem last_trimWhile (h : c ∈ (trimWhile p cs).getLast?) : p c = false := by
  have hne : trimWhile p cs ≠ [] := by
    rintro hnil
    rw [hnil] at h
    cases h
  rw [List.getLast?_eq_some_getLast hne] at h
  cases h
  exact Bool.eq_false_iff.mpr (List.rdropWhile_last_not p _ hne)

theorem exists_eq_append_trimWhile (p : Char → Bool) (cs : List Char) :
    ∃ front back, cs = front ++ (trimWhile p cs ++ back) ∧ (∀ c ∈ front, p c = true) ∧ ∀ c ∈ back, p c = true := by
  refine ⟨cs.takeWhile p, ((cs.dropWhile p).reverse.takeWhile p).reverse, ?_,
    List.all_eq_true.mp List.all_takeWhile, fun c hc => ?_⟩
  · rw [trimWhile, dropEndWhile, ← List.reverse_append, List.takeWhile_append_dropWhile, List.reverse_reverse,
      List.takeWhile_append_dropWhile]
  · exact List.all_eq_true.mp List.all_takeWhile c (List.mem_reverse.mp hc)

theorem dropWhile_append_of_first {front : List Char} (hfront : ∀ c ∈ front, p c = true)
    (hfirst : ∀ c ∈ cs.head?, p c = false) : (front ++ cs).dropWhile p = cs := by
  rw [List.dropWhile_append_of_pos hfront]
  cases cs with
  | nil => rfl
  | cons c cs => exact List.dropWhile_cons_of_neg (by simp [hfirst c rfl])

theorem trimWhile_eq_of_append {front back : List Char} (hfront : ∀ c ∈ front, p c = true)
    (hback : ∀ c ∈ back, p c = true) (hfirst : ∀ c ∈ mid.head?, p c = false)
    (hlast : ∀ c ∈ mid.getLast?, p c = false) : trimWhile p (front ++ (mid ++ back)) = mid := by
  have hend : dropEndWhile p (mid ++ back) = mid := by
    rw [dropEndWhile, List.reverse_append,
      dropWhile_append_of_first (fun c hc => hback c (List.mem_reverse.mp hc)) (by simpa using hlast),
      List.reverse_reverse]
  rw [trimWhile]
  cases mid with
  | nil =>
    have hnil : (front ++ ([] ++ back)).dropWhile p = [] := by
      rw [List.dropWhile_append_of_pos hfront]
      exact List.dropWhile_eq_nil_iff.mpr hback
    rw [hnil]
    rfl
  | cons c mid =>
    have hfirst' : ∀ d ∈ (c :: mid ++ back).head?, p d = false := hfirst
    rw [dropWhile_append_of_first hfront hfirst', hend]

theorem trimWhile_append_of_ends {front : List Char} (hfront : ∀ c ∈ front, p c = true)
    (hfirst : ∀ c ∈ mid.head?, p c = false) (hlast : ∀ c ∈ mid.getLast?, p c = false) :
    trimWhile p (front ++ mid) = mid := by
  have htrim : trimWhile p (front ++ (mid ++ [])) = mid := trimWhile_eq_of_append hfront (by simp) hfirst hlast
  rwa [List.append_nil] at htrim

theorem length_trimWhile_le (p : Char → Bool) (cs : List Char) : (trimWhile p cs).length ≤ cs.length := by
  obtain ⟨front, back, hcs, -, -⟩ := exists_eq_append_trimWhile p cs
  have hlength := congrArg List.length hcs
  rw [List.length_append, List.length_append] at hlength
  omega

theorem trimWhile_eq_nil_iff : trimWhile p cs = [] ↔ ∀ c ∈ cs, p c = true := by
  constructor
  · intro h c hc
    obtain ⟨front, back, hcs, hfront, hback⟩ := exists_eq_append_trimWhile p cs
    rw [h, List.nil_append] at hcs
    rw [hcs, List.mem_append] at hc
    exact hc.elim (hfront c) (hback c)
  · intro h
    have hall := @trimWhile_eq_of_append p [] cs [] h (by simp) (by simp) (by simp)
    rwa [List.nil_append, List.append_nil] at hall

end SolidityAst.Text
