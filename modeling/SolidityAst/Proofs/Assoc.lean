import Mathlib.Data.List.Sort
import SolidityAst.Assoc

/-!
Look-ups in association lists.

What `insert` does to look-ups holds of every list; that it keeps the increasing order needs the keys to
be in a linear order.
-/
namespace SolidityAst.Assoc

variable {κ : Type} {α : Type} [DecidableEq κ]

theorem find?_eq_none {key : κ} {l : List (κ × α)} : find? key l = none ↔ ∀ e ∈ l, e.1 ≠ key := by
  induction l with
  | nil => simp [find?]
  | cons e rest ih =>
    obtain ⟨k, v⟩ := e
    rw [find?]
    by_cases hk : k = key
    · simp [hk]
    · simp [hk, ih]

theorem erase_of_find?_none {key : κ} {l : List (κ × α)} (h : find? key l = none) :
    erase key l = l := by
  unfold erase
  rw [List.filter_eq_self]
  intro e he
  simpa using find?_eq_none.mp h e he

@[simp] theorem find?_erase (key k : κ) (l : List (κ × α)) :
    find? k (erase key l) = if k = key then none else find? k l := by
  unfold erase
  induction l with
  | nil => simp [find?]
  | cons e rest ih =>
    obtain ⟨k', v⟩ := e
    by_cases hkey : k' = key
    · rw [List.filter_cons_of_neg (by simp [hkey]), ih, find?]
      by_cases hk : k = key
      · rw [if_pos hk, if_pos hk]
      · rw [if_neg hk, if_neg hk, if_neg fun h => hk (h.symm.trans hkey)]
    · rw [List.filter_cons_of_pos (by simp [hkey]), find?, find?, ih]
      by_cases hk : k' = k
      · rw [if_pos hk, if_pos hk, if_neg fun h => hkey (hk.trans h)]
      · rw [if_neg hk, if_neg hk]

theorem mem_of_find? {key : κ} {value : α} {l : List (κ × α)} (h : find? key l = some value) :
    (key, value) ∈ l := by
  induction l with
  | nil => cases h
  | cons e rest ih =>
    obtain ⟨k, v⟩ := e
    rw [find?] at h
    by_cases hk : k = key
    · rw [if_pos hk] at h
      cases h
      rw [hk]
      exact List.mem_cons_self
    · rw [if_neg hk] at h
      exact List.mem_cons_of_mem _ (ih h)

@[simp] theorem find?_map {β : Type} (f : α → β) (key : κ) (l : List (κ × α)) :
    find? key (l.map fun e => (e.1, f e.2)) = (find? key l).map f := by
  induction l with
  | nil => rfl
  | cons e rest ih =>
    rw [List.map_cons, find?, find?]
    by_cases hk : e.1 = key
    · rw [if_pos hk, if_pos hk, Option.map_some]
    · rw [if_neg hk, if_neg hk, ih]

section Insertion

variable [LT κ] [DecidableRel (α := κ) (· < ·)]

@[simp] theorem find?_insert (key k : κ) (value : α) (l : List (κ × α)) :
    find? k (insert key value l) = if k = key then some value else find? k l := by
  induction l with
  | nil =>
    rw [insert, find?, find?]
    by_cases hk : k = key
    · rw [if_pos hk, if_pos hk.symm]
    · rw [if_neg hk, if_neg (Ne.symm hk), find?]
  | cons e rest ih =>
    obtain ⟨k', v'⟩ := e
    rw [insert]
    by_cases hlt : key < k'
    · rw [if_pos hlt, find?]
      by_cases hk : k = key
      · rw [if_pos hk, if_pos hk.symm]
      · rw [if_neg hk, if_neg (Ne.symm hk)]
    · rw [if_neg hlt]
      by_cases heq : key = k'
      · rw [if_pos heq, find?, find?, heq]
        by_cases hk : k = k'
        · rw [if_pos hk, if_pos hk.symm]
        · rw [if_neg hk, if_neg (Ne.symm hk), if_neg (Ne.symm hk)]
      · rw [if_neg heq, find?, find?, ih]
        by_cases hk : k' = k
        · have hkey : k ≠ key := fun h => heq (h.symm.trans hk.symm)
          rw [if_pos hk, if_pos hk, if_neg hkey]
        · rw [if_neg hk, if_neg hk]

-- Where an entry goes depends on the keys alone.
theorem map_insert {β : Type} (f : α → β) (key : κ) (value : α) (l : List (κ × α)) :
    (insert key value l).map (fun e => (e.1, f e.2)) =
      insert key (f value) (l.map fun e => (e.1, f e.2)) := by
  induction l with
  | nil => rfl
  | cons e rest ih =>
    obtain ⟨k, v⟩ := e
    rw [List.map_cons, insert, insert]
    by_cases hlt : key < k
    · rw [if_pos hlt, if_pos hlt, List.map_cons, List.map_cons]
    · rw [if_neg hlt, if_neg hlt]
      by_cases heq : key = k
      · rw [if_pos heq, if_pos heq, List.map_cons]
      · rw [if_neg heq, if_neg heq, List.map_cons, ih]

-- A key that was not there leaves no trace when it is put in and dropped again.
theorem erase_insert {key : κ} {l : List (κ × α)} (value : α) (h : find? key l = none) :
    erase key (insert key value l) = l := by
  induction l with
  | nil => simp [insert, erase]
  | cons e rest ih =>
    obtain ⟨k, v⟩ := e
    have hself := erase_of_find?_none h
    rw [find?] at h
    have hk : k ≠ key := by
      rintro rfl
      simp at h
    rw [if_neg hk] at h
    rw [insert]
    by_cases hlt : key < k
    · rw [if_pos hlt]
      unfold erase at hself ⊢
      rw [List.filter_cons_of_neg (by simp), hself]
    · rw [if_neg hlt, if_neg (Ne.symm hk)]
      have ih' := ih h
      unfold erase at ih' ⊢
      rw [List.filter_cons_of_pos (by simp [hk]), ih']

theorem mem_insert {key : κ} {value : α} {l : List (κ × α)} {e : κ × α}
    (h : e ∈ insert key value l) : e = (key, value) ∨ e ∈ l := by
  induction l with
  | nil => simpa [insert] using h
  | cons e' rest ih =>
    obtain ⟨k, v⟩ := e'
    rw [insert] at h
    by_cases hlt : key < k
    · rw [if_pos hlt] at h
      exact List.mem_cons.mp h
    · rw [if_neg hlt] at h
      by_cases heq : key = k
      · rw [if_pos heq] at h
        rcases List.mem_cons.mp h with h | h
        · exact Or.inl h
        · exact Or.inr (List.mem_cons_of_mem _ h)
      · rw [if_neg heq] at h
        rcases List.mem_cons.mp h with rfl | h
        · exact Or.inr List.mem_cons_self
        · rcases ih h with h | h
          · exact Or.inl h
          · exact Or.inr (List.mem_cons_of_mem _ h)

theorem insert_perm {key : κ} {l : List (κ × α)} (value : α) (h : find? key l = none) :
    (insert key value l).Perm ((key, value) :: l) := by
  induction l with
  | nil => exact .refl _
  | cons e rest ih =>
    obtain ⟨k, v⟩ := e
    have hk : k ≠ key := find?_eq_none.mp h _ List.mem_cons_self
    rw [find?, if_neg hk] at h
    rw [insert]
    by_cases hlt : key < k
    · rw [if_pos hlt]
    · rw [if_neg hlt, if_neg (Ne.symm hk)]
      exact ((ih h).cons (k, v)).trans (.swap _ _ _)

theorem mem_ofList {l : List (κ × α)} {e : κ × α} (h : e ∈ ofList l) : e ∈ l := by
  have hfold : ∀ (l sorted : List (κ × α)),
      e ∈ l.foldl (fun sorted e => insert e.1 e.2 sorted) sorted → e ∈ sorted ∨ e ∈ l := by
    intro l
    induction l with
    | nil => exact fun sorted h => .inl h
    | cons e' rest ih =>
      intro sorted h
      rcases ih _ h with h | h
      · rcases mem_insert h with rfl | h
        · exact .inr List.mem_cons_self
        · exact .inl h
      · exact .inr (List.mem_cons_of_mem _ h)
  exact (hfold l [] h).resolve_left List.not_mem_nil

-- Where no key occurs twice, that the last entry of a key stays makes no difference.
theorem find?_ofList {l : List (κ × α)} (h : (l.map Prod.fst).Nodup) (key : κ) :
    find? key (ofList l) = find? key l := by
  have hfold : ∀ (l sorted : List (κ × α)), (l.map Prod.fst).Nodup →
      find? key (l.foldl (fun sorted e => insert e.1 e.2 sorted) sorted) =
        (find? key l).or (find? key sorted) := by
    intro l
    induction l with
    | nil => exact fun sorted _ => rfl
    | cons e rest ih =>
      intro sorted h
      obtain ⟨k, v⟩ := e
      rw [List.map_cons, List.nodup_cons] at h
      rw [List.foldl_cons, ih _ h.2, find?_insert, find?]
      by_cases hk : k = key
      · have hrest : find? key rest = none := find?_eq_none.mpr fun e he hkey =>
          h.1 (List.mem_map.mpr ⟨e, he, hkey.trans hk.symm⟩)
        rw [hrest, if_pos hk.symm, if_pos hk]
        rfl
      · rw [if_neg (Ne.symm hk), if_neg hk]
  rw [ofList, hfold l [] h]
  exact Option.or_none

end Insertion

/-! ## Increasing order -/

/-- The keys of a list increase, so each occurs once. -/
def Increasing [LT κ] (l : List (κ × α)) : Prop := l.Pairwise fun a b => a.1 < b.1

instance [LT κ] [DecidableRel (α := κ) (· < ·)] (l : List (κ × α)) : Decidable (Increasing l) :=
  inferInstanceAs (Decidable (l.Pairwise _))

theorem Increasing.insert [LE κ] [LT κ] [DecidableRel (α := κ) (· < ·)] [Std.IsLinearOrder κ]
    [Std.LawfulOrderLT κ] {l : List (κ × α)} (h : Increasing l) (key : κ) (value : α) :
    Increasing (Assoc.insert key value l) := by
  unfold Increasing at h ⊢
  induction l with
  | nil => simp [Assoc.insert]
  | cons e rest ih =>
    obtain ⟨k, v⟩ := e
    rw [List.pairwise_cons] at h
    rw [Assoc.insert]
    by_cases hlt : key < k
    · rw [if_pos hlt, List.pairwise_cons, List.pairwise_cons]
      refine ⟨fun e he => ?_, h⟩
      rcases List.mem_cons.mp he with rfl | he
      · exact hlt
      · exact Std.lt_trans hlt (h.1 e he)
    · rw [if_neg hlt]
      by_cases heq : key = k
      · rw [if_pos heq, List.pairwise_cons, heq]
        exact h
      · rw [if_neg heq, List.pairwise_cons]
        refine ⟨fun e he => ?_, ih h.2⟩
        rcases mem_insert he with rfl | he
        · exact Std.lt_of_le_of_ne (Std.not_lt.mp hlt) (Ne.symm heq)
        · exact h.1 e he

theorem Increasing.ofList [LE κ] [LT κ] [DecidableRel (α := κ) (· < ·)] [Std.IsLinearOrder κ]
    [Std.LawfulOrderLT κ] (l : List (κ × α)) : Increasing (Assoc.ofList l) := by
  have hfold : ∀ (l sorted : List (κ × α)), Increasing sorted →
      Increasing (l.foldl (fun sorted e => Assoc.insert e.1 e.2 sorted) sorted) := by
    intro l
    induction l with
    | nil => exact fun sorted h => h
    | cons e rest ih => exact fun sorted h => ih _ (h.insert e.1 e.2)
  exact hfold l [] List.Pairwise.nil

section Order

variable [LE κ] [LT κ] [Std.LawfulOrderLT κ] {l l' : List (κ × α)}

theorem Increasing.find?_eq_some {key : κ} {value : α} (h : Increasing l) :
    find? key l = some value ↔ (key, value) ∈ l := by
  induction l with
  | nil => simp [find?]
  | cons e rest ih =>
    obtain ⟨k, v⟩ := e
    have hrest : ∀ e ∈ rest, k < e.1 := (List.pairwise_cons.mp h).1
    rw [find?, List.mem_cons, Prod.mk.injEq]
    by_cases hk : k = key
    · have hnot : (key, value) ∉ rest := fun hmem => by
        have hlt := hrest _ hmem
        rw [hk] at hlt
        exact Std.lt_irrefl hlt
      rw [if_pos hk, Option.some.injEq, or_iff_left hnot]
      exact ⟨fun he => ⟨hk.symm, he.symm⟩, fun he => he.2.symm⟩
    · rw [if_neg hk, ih (List.pairwise_cons.mp h).2, or_iff_right fun he => hk he.1.symm]

omit [DecidableEq κ] in
theorem Increasing.nodup (h : Increasing l) : (l.map Prod.fst).Nodup := by
  refine List.pairwise_map.mpr (h.imp fun {a b} hlt heq => ?_)
  rw [heq] at hlt
  exact Std.lt_irrefl hlt

/-- Two lists with the same look-ups are equal. -/
theorem Increasing.ext [Std.IsLinearOrder κ] (h : Increasing l) (h' : Increasing l')
    (hfind : ∀ key, find? key l = find? key l') : l = l' := by
  have hirrefl : Std.Irrefl fun a b : κ × α => a.1 < b.1 := ⟨fun _ => Std.lt_irrefl⟩
  refine List.Pairwise.eq_of_mem_iff (r := fun a b : κ × α => a.1 < b.1) h h' fun ⟨key, value⟩ => ?_
  rw [← h.find?_eq_some, hfind, h'.find?_eq_some]

end Order

end SolidityAst.Assoc
