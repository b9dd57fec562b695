import Mathlib.Data.List.Basic
import SolidityAst.Path
import SolidityAst.Proofs.Text.Fields

/-!
Cleaned names.

The cleaned names of a path are some `..` followed by proper names, and a rooted path has no `..` left.
On such lists cleaning does nothing, so a path is cleaned exactly when `ofNames` makes it from such a
list, and everything that is said about cleaned paths here is said about their lists of names.
-/
namespace SolidityAst.Path

open Text

/-- A name that an entry of a directory can have. -/
def IsName (s : String) : Prop := s ≠ "" ∧ s ≠ "." ∧ s ≠ ".." ∧ '/' ∉ s.toList

instance : DecidablePred IsName := fun _ => inferInstanceAs (Decidable (_ ∧ _))

/-- The form of cleaned names: steps up, none from the root, and then proper names. -/
def Cleaned (rooted : Bool) (ns : List String) : Prop :=
  ∃ k down, ns = List.replicate k ".." ++ down ∧ (∀ n ∈ down, IsName n) ∧ (rooted = true → k = 0)

theorem Cleaned.of_isName {rooted : Bool} {ns : List String} (h : ∀ n ∈ ns, IsName n) :
    Cleaned rooted ns :=
  ⟨0, ns, rfl, h, fun _ => rfl⟩

theorem Cleaned.nil (rooted : Bool) : Cleaned rooted [] :=
  Cleaned.of_isName (by simp)

theorem Cleaned.isName {ns : List String} (h : Cleaned true ns) : ∀ n ∈ ns, IsName n := by
  obtain ⟨k, down, rfl, hd, hk⟩ := h
  rw [hk rfl]
  simpa using hd

theorem Cleaned.eq_dots_or_isName {rooted : Bool} {ns : List String} (h : Cleaned rooted ns) :
    ∀ n ∈ ns, n = ".." ∨ IsName n := by
  obtain ⟨k, down, rfl, hd, -⟩ := h
  intro n hn
  rcases List.mem_append.mp hn with hn | hn
  · exact Or.inl (List.eq_of_mem_replicate hn)
  · exact Or.inr (hd n hn)

theorem Cleaned.noSlash {rooted : Bool} {ns : List String} (h : Cleaned rooted ns) :
    ∀ n ∈ ns, n ≠ "" ∧ n ≠ "." ∧ '/' ∉ n.toList := by
  intro n hn
  rcases h.eq_dots_or_isName n hn with rfl | hn
  · decide
  · exact ⟨hn.1, hn.2.1, hn.2.2.2⟩

theorem Cleaned.append {rooted : Bool} {ns ms : List String} (h : Cleaned rooted ns)
    (hm : ∀ n ∈ ms, IsName n) : Cleaned rooted (ns ++ ms) := by
  obtain ⟨k, down, rfl, hd, hk⟩ := h
  refine ⟨k, down ++ ms, by rw [List.append_assoc], ?_, hk⟩
  intro n hn
  rcases List.mem_append.mp hn with hn | hn
  · exact hd n hn
  · exact hm n hn

/-- What comes before a last name is cleaned as well. -/
theorem Cleaned.of_append {rooted : Bool} {ns ms : List String} (h : Cleaned rooted (ns ++ ms)) :
    Cleaned rooted ns := by
  obtain ⟨k, down, he, hd, hk⟩ := h
  rcases List.append_eq_append_iff.mp he with ⟨as, hr, -⟩ | ⟨bs, hn, hb⟩
  · obtain ⟨hlen, hns, -⟩ := List.append_eq_replicate_iff.mp hr.symm
    refine ⟨ns.length, [], ?_, by simp, fun h => ?_⟩
    · rw [List.append_nil, ← hns]
    · have := hk h
      omega
  · refine ⟨k, bs, hn, fun n hnb => hd n ?_, hk⟩
    rw [hb]
    exact List.mem_append_left _ hnb

theorem Cleaned.dropLast {rooted : Bool} {ns : List String} (h : Cleaned rooted ns) :
    Cleaned rooted ns.dropLast := by
  rcases List.eq_nil_or_concat' ns with rfl | ⟨init, l, rfl⟩
  · exact h
  · rw [List.dropLast_concat]
    exact h.of_append

/-- Cleaned names end with a proper name, or all lead up. -/
theorem Cleaned.isName_or_ups {rooted : Bool} {init : List String} {l : String}
    (h : Cleaned rooted (init ++ [l])) : IsName l ∨ ∀ n ∈ init ++ [l], n = ".." := by
  obtain ⟨k, down, he, hd, -⟩ := h
  rcases List.eq_nil_or_concat' down with rfl | ⟨down, m, rfl⟩
  · right
    intro n hn
    rw [he, List.append_nil] at hn
    exact List.eq_of_mem_replicate hn
  · left
    rw [← List.append_assoc] at he
    have hlast := (List.append_inj' he rfl).2
    rw [List.singleton_inj.mp hlast]
    exact hd m (by simp)

/-! ## Cleaning a list of names -/

@[simp] theorem cleanStep_dot (rooted : Bool) (before : List String) :
    cleanStep rooted before "." = before := by
  simp [cleanStep]

@[simp] theorem cleanStep_empty (rooted : Bool) (before : List String) :
    cleanStep rooted before "" = before := by
  simp [cleanStep]

theorem cleanStep_isName (rooted : Bool) (before : List String) {n : String} (h : IsName n) :
    cleanStep rooted before n = n :: before := by
  simp [cleanStep, h.1, h.2.1, h.2.2.1]

theorem foldl_cleanStep_isName (rooted : Bool) (before : List String) {ns : List String}
    (h : ∀ n ∈ ns, IsName n) : ns.foldl (cleanStep rooted) before = ns.reverse ++ before := by
  induction ns generalizing before with
  | nil => rfl
  | cons n ns ih =>
    rw [List.foldl_cons, cleanStep_isName _ _ (h n List.mem_cons_self),
      ih _ (fun m hm => h m (List.mem_cons_of_mem _ hm)), List.reverse_cons, List.append_assoc]
    rfl

theorem foldl_cleanStep_dots (k j : Nat) :
    (List.replicate k "..").foldl (cleanStep false) (List.replicate j "..") =
      List.replicate (k + j) ".." := by
  induction k generalizing j with
  | zero => simp
  | succ k ih =>
    have hs : cleanStep false (List.replicate j "..") ".." = List.replicate (j + 1) ".." := by
      cases j with
      | zero => rfl
      | succ j => simp [cleanStep, List.replicate_succ]
    rw [List.replicate_succ, List.foldl_cons, hs, ih]
    congr 1
    omega

/-- Cleaned names stay as they are. -/
-- From a rooted place every step up takes off a name, until none is left.
theorem foldl_cleanStep_ups (k : Nat) {before : List String} (h : ∀ n ∈ before, IsName n) :
    (List.replicate k "..").foldl (cleanStep true) before = before.drop k := by
  induction k generalizing before with
  | zero => rfl
  | succ k ih =>
    rw [List.replicate_succ, List.foldl_cons]
    cases before with
    | nil =>
      have hroot : cleanStep true [] ".." = [] := rfl
      rw [hroot, ih h, List.drop_nil, List.drop_nil]
    | cons last rest =>
      have hlast : last ≠ ".." := (h last List.mem_cons_self).2.2.1
      have hup : cleanStep true (last :: rest) ".." = rest := by simp [cleanStep, hlast]
      rw [hup, ih fun n hn => h n (List.mem_cons_of_mem _ hn), List.drop_succ_cons]

theorem Cleaned.foldl_cleanStep {rooted : Bool} {ns : List String} (h : Cleaned rooted ns) :
    ns.foldl (cleanStep rooted) [] = ns.reverse := by
  obtain ⟨k, down, rfl, hd, hk⟩ := h
  have hups : (List.replicate k "..").foldl (cleanStep rooted) [] = List.replicate k ".." := by
    cases rooted with
    | false => simpa using foldl_cleanStep_dots k 0
    | true => simp [hk rfl]
  rw [List.foldl_append, hups, foldl_cleanStep_isName _ _ hd, List.reverse_append,
    List.reverse_replicate]

/-- One step keeps names that are cleaned so far, last name first, in the cleaned form. -/
theorem Cleaned.cleanStep {rooted : Bool} {before : List String} (h : Cleaned rooted before.reverse)
    {n : String} (hn : '/' ∉ n.toList) : Cleaned rooted (cleanStep rooted before n).reverse := by
  by_cases hskip : n = "" ∨ n = "."
  · rcases hskip with rfl | rfl
    · rwa [cleanStep_empty]
    · rwa [cleanStep_dot]
  rw [not_or] at hskip
  by_cases hup : n = ".."
  · subst hup
    cases before with
    | nil =>
      cases rooted with
      | false => exact ⟨1, [], rfl, by simp, by simp⟩
      | true => exact ⟨0, [], rfl, by simp, by simp⟩
    | cons last rest =>
      rw [List.reverse_cons] at h
      by_cases hlast : last = ".."
      · -- Only steps up come before a step up, so one more of them is allowed.
        have hs : Path.cleanStep rooted (last :: rest) ".." = ".." :: last :: rest := by
          simp [Path.cleanStep, hlast]
        rw [hs, List.reverse_cons, List.reverse_cons, hlast]
        rw [hlast] at h
        obtain ⟨k, down, he, hd, hk⟩ := h
        cases hdown : down.reverse with
        | nil =>
          rw [List.reverse_eq_nil_iff.mp hdown, List.append_nil] at he
          refine ⟨k + 1, [], ?_, by simp, fun hr => ?_⟩
          · rw [he, List.append_nil, ← List.replicate_succ']
          · have hlen := congrArg List.length he
            rw [hk hr] at hlen
            simp at hlen
        | cons d ds =>
          rw [List.reverse_eq_cons_iff.mp hdown, ← List.append_assoc] at he
          have hd' := (List.append_inj' he rfl).2
          rw [List.cons.injEq] at hd'
          have hmem : d ∈ down := by rw [List.reverse_eq_cons_iff.mp hdown]; simp
          exact absurd hd'.1.symm (hd d hmem).2.2.1
      · have hs : Path.cleanStep rooted (last :: rest) ".." = rest := by
          simp [Path.cleanStep, hlast]
        rw [hs]
        exact h.of_append
  · rw [cleanStep_isName _ _ ⟨hskip.1, hskip.2, hup, hn⟩, List.reverse_cons]
    refine h.append fun m hm => ?_
    rw [List.mem_singleton.mp hm]
    exact ⟨hskip.1, hskip.2, hup, hn⟩

theorem Cleaned.foldl {rooted : Bool} {ns before : List String} (h : Cleaned rooted before.reverse)
    (hn : ∀ n ∈ ns, '/' ∉ n.toList) :
    Cleaned rooted (ns.foldl (Path.cleanStep rooted) before).reverse := by
  induction ns generalizing before with
  | nil => exact h
  | cons n ns ih =>
    exact ih (h.cleanStep (hn n List.mem_cons_self)) fun m hm => hn m (List.mem_cons_of_mem _ hm)

theorem cleaned_cleanNames (p : String) : Cleaned (isAbsolute p) (cleanNames p) :=
  Cleaned.foldl (Cleaned.nil _) fun _ h => notMem_of_mem_fields h

/-! ## Cleaning twice

Names that are cleaned on their own and then put after others give what they give uncleaned: a step up
is either kept by the first cleaning or takes away a name that the second would have taken away. -/

theorem cleanStep_foldl (rooted : Bool) (start : List String) {before : List String} (n : String)
    (h : Cleaned false before.reverse) (hn : '/' ∉ n.toList) :
    cleanStep rooted (before.reverse.foldl (cleanStep rooted) start) n =
      (cleanStep false before n).reverse.foldl (cleanStep rooted) start := by
  by_cases hskip : n = "" ∨ n = "."
  · rcases hskip with rfl | rfl
    · simp
    · simp
  rw [not_or] at hskip
  by_cases hup : n = ".."
  · subst hup
    cases before with
    | nil => rfl
    | cons last rest =>
      by_cases hlast : last = ".."
      · have hs : cleanStep false (last :: rest) ".." = ".." :: last :: rest := by
          simp [cleanStep, hlast]
        rw [hs]
        simp only [List.reverse_cons, List.foldl_append, List.foldl_cons, List.foldl_nil]
      · have hs : cleanStep false (last :: rest) ".." = rest := by
          simp [cleanStep, hlast]
        have hname : IsName last :=
          (h.eq_dots_or_isName last (by simp)).resolve_left hlast
        rw [hs, List.reverse_cons, List.foldl_append, List.foldl_cons, List.foldl_nil,
          cleanStep_isName _ _ hname]
        simp [cleanStep, hlast]
  · have hname : IsName n := ⟨hskip.1, hskip.2, hup, hn⟩
    rw [cleanStep_isName false _ hname, List.reverse_cons, List.foldl_append]
    rfl

theorem foldl_cleanStep_foldl (rooted : Bool) (start : List String) {before ns : List String}
    (h : Cleaned false before.reverse) (hn : ∀ n ∈ ns, '/' ∉ n.toList) :
    ns.foldl (cleanStep rooted) (before.reverse.foldl (cleanStep rooted) start) =
      (ns.foldl (cleanStep false) before).reverse.foldl (cleanStep rooted) start := by
  induction ns generalizing before with
  | nil => rfl
  | cons n ns ih =>
    have hn0 := hn n List.mem_cons_self
    rw [List.foldl_cons, List.foldl_cons, cleanStep_foldl _ _ _ h hn0]
    exact ih (h.cleanStep hn0) fun m hm => hn m (List.mem_cons_of_mem _ hm)

/-- The names of a relative path count after other names as its cleaned names do. -/
theorem foldl_cleanStep_names (rooted : Bool) (start : List String) {p : String}
    (hp : isAbsolute p = false) :
    (names p).foldl (cleanStep rooted) start = (cleanNames p).foldl (cleanStep rooted) start := by
  have hnil : Cleaned false ([] : List String).reverse := Cleaned.nil false
  rw [cleanNames, hp]
  exact foldl_cleanStep_foldl rooted start hnil fun _ hm => notMem_of_mem_fields hm

end SolidityAst.Path
