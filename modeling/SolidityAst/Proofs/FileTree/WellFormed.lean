import Mathlib.Data.List.Induction
import SolidityAst.FileTree.Basic
import SolidityAst.Proofs.Assoc
import SolidityAst.Proofs.Path.Clean

/-!
Well-formed file trees.

Places stand in increasing order, their names are proper names, and whatever stands somewhere stands in
a directory.  So nothing lies below a place that is free, and a node can be put into any directory
where there is none.
-/
namespace SolidityAst

theorem Node.eq_directory {node : Node} (h : node.isDirectory = true) : node = .directory := by
  cases node with
  | directory => rfl
  | file content executable => cases h
  | link target => cases h

namespace FileTree

/-! ## Look-ups after a change -/

variable {t : FileTree} {place : Place}

@[simp] theorem get?_nil (t : FileTree) : t.get? [] = some .directory := rfl

theorem ne_nil_of_get?_none (h : t.get? place = none) : place ≠ [] := by
  rintro rfl
  cases h

@[simp] theorem get?_insert (t : FileTree) (node : Node) (hp : place ≠ []) (q : Place) :
    (t.insert place node).get? q = if q = place then some node else t.get? q := by
  unfold get? insert
  by_cases hq : q = []
  · rw [if_pos hq, if_pos hq, if_neg fun h => hp (h.symm.trans hq)]
  · rw [if_neg hq, if_neg hq, Assoc.find?_insert]

theorem erase_insert (node : Node) (h : t.get? place = none) : (t.insert place node).erase place = t := by
  have hp := ne_nil_of_get?_none h
  unfold get? at h
  rw [if_neg hp] at h
  unfold insert erase
  rw [Assoc.erase_insert node h]

/-! ## Well-formed trees -/

/-- What a file system keeps to. -/
structure WellFormed (t : FileTree) : Prop where
  increasing : Assoc.Increasing t.entries
  named : ∀ e ∈ t.entries, e.1 ≠ [] ∧ ∀ n ∈ e.1, Path.IsName n
  rooted : ∀ place name, t.get? (place ++ [name]) ≠ none → t.get? place = some .directory

theorem exists_entry_of_get? (hp : place ≠ []) (h : t.get? place ≠ none) : ∃ e ∈ t.entries, e.1 = place := by
  unfold get? at h
  rw [if_neg hp, Ne, Assoc.find?_eq_none] at h
  push Not at h
  exact h

theorem get?_of_mem_entries {e : Place × Node} (he : e ∈ t.entries) : t.get? e.1 ≠ none := by
  unfold get?
  by_cases hp : e.1 = []
  · rw [if_pos hp]
    simp
  · rw [if_neg hp, Ne, Assoc.find?_eq_none]
    exact fun h => h e he rfl

-- It is enough to look at the entries, of which there are only so many.
theorem wellFormed_iff : t.WellFormed ↔
    Assoc.Increasing t.entries ∧ (∀ e ∈ t.entries, e.1 ≠ [] ∧ ∀ n ∈ e.1, Path.IsName n) ∧
      ∀ e ∈ t.entries, t.get? e.1.dropLast = some .directory := by
  constructor
  · rintro ⟨hincr, hnamed, hrooted⟩
    refine ⟨hincr, hnamed, fun e he => ?_⟩
    have hlast := List.dropLast_concat_getLast (hnamed e he).1
    refine hrooted _ (e.1.getLast (hnamed e he).1) ?_
    rw [hlast]
    exact get?_of_mem_entries he
  · rintro ⟨hincr, hnamed, hrooted⟩
    refine ⟨hincr, hnamed, fun place name h => ?_⟩
    obtain ⟨e, he, heq⟩ := exists_entry_of_get? (by simp) h
    have hdir := hrooted e he
    rwa [heq, List.dropLast_concat] at hdir

instance (t : FileTree) : Decidable t.WellFormed := decidable_of_iff _ wellFormed_iff.symm

namespace WellFormed

theorem get?_above (ht : t.WellFormed) {q : Place} (hp : t.get? place ≠ none) (h : q <+: place) :
    q = place ∨ t.get? q = some .directory := by
  obtain ⟨rest, rfl⟩ := h
  -- Names are taken off the end, and each time what is left is a directory.
  induction rest using List.reverseRecOn with
  | nil => exact Or.inl (List.append_nil q).symm
  | append_singleton rest name ih =>
    rw [← List.append_assoc] at hp
    have hdir := ht.rooted _ _ hp
    rcases ih (by rw [hdir]; simp) with h | h
    · right
      rw [h, hdir]
    · exact Or.inr h

theorem get?_append_none (ht : t.WellFormed) (h : t.get? place = none) (rest : List String) :
    t.get? (place ++ rest) = none := by
  by_contra hne
  rcases ht.get?_above hne (List.prefix_append place rest) with heq | hdir
  · rw [← heq] at hne
    exact hne h
  · rw [h] at hdir
    cases hdir

theorem isName_of_get? (ht : t.WellFormed) (h : t.get? place ≠ none) : ∀ n ∈ place, Path.IsName n := by
  intro n hn
  obtain ⟨e, he, rfl⟩ := exists_entry_of_get? (List.ne_nil_of_mem hn) h
  exact (ht.named e he).2 n hn

/-- A node can be put under a proper name into a directory, unless this buries a directory. -/
theorem insert (ht : t.WellFormed) {name : String} (node : Node)
    (hdir : t.get? place = some .directory) (hname : Path.IsName name)
    (hfree : t.get? (place ++ [name]) ≠ some .directory) :
    (t.insert (place ++ [name]) node).WellFormed where
  increasing := ht.increasing.insert _ _
  named := by
    intro e he
    rcases Assoc.mem_insert he with rfl | he
    · refine ⟨by simp, fun n hn => ?_⟩
      rcases List.mem_append.mp hn with hn | hn
      · exact ht.isName_of_get? (by rw [hdir]; simp) n hn
      · rwa [List.mem_singleton.mp hn]
    · exact ht.named e he
  rooted := by
    intro q m h
    rw [get?_insert t node (by simp)] at h ⊢
    by_cases hq : q ++ [m] = place ++ [name]
    · have hq' : q = place := (List.append_inj' hq rfl).1
      have hne : q ≠ place ++ [name] := by
        rw [hq']
        simp
      rw [if_neg hne, hq', hdir]
    · rw [if_neg hq] at h
      have hparent := ht.rooted q m h
      have hne : q ≠ place ++ [name] := by
        rintro rfl
        exact hfree hparent
      rw [if_neg hne, hparent]

end WellFormed

end FileTree

end SolidityAst
