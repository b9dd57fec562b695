import Mathlib.Data.List.Basic

/-!
Facts about lists in general: steps that may fail, made for one item after another, and sorting by a key.
-/
namespace SolidityAst

/-! ## Steps that may fail -/

section

variable {ε ε' α β : Type}

theorem map_eq_ok_iff {x : Except ε α} {f : α → β} {b : β} : x.map f = .ok b ↔ ∃ a, x = .ok a ∧ f a = b := by
  cases x <;> simp [Except.map]

theorem map_eq_error_iff {x : Except ε α} {f : α → β} {e : ε} : x.map f = .error e ↔ x = .error e := by
  cases x <;> simp [Except.map]

theorem mapError_eq_ok_iff {x : Except ε α} {f : ε → ε'} {a : α} : x.mapError f = .ok a ↔ x = .ok a := by
  cases x <;> simp [Except.mapError]

theorem mapError_eq_error_iff {x : Except ε α} {f : ε → ε'} {e : ε'} :
    x.mapError f = .error e ↔ ∃ e', x = .error e' ∧ f e' = e := by
  cases x <;> simp [Except.mapError]

theorem bind_eq_ok_iff {x : Except ε α} {f : α → Except ε β} {b : β} :
    (x >>= f) = .ok b ↔ ∃ a, x = .ok a ∧ f a = .ok b := by
  cases x <;> simp [bind, Except.bind]

theorem eq_map_of_mapM {f : α → Option β} {g : α → β} :
    ∀ {as : List α} {bs : List β}, (∀ a ∈ as, ∀ b, f a = some b → b = g a) → as.mapM f = some bs → bs = as.map g := by
  intro as
  induction as with
  | nil =>
    intro bs _ h
    cases h
    rfl
  | cons a as ih =>
    intro bs hg h
    rw [List.mapM_cons] at h
    obtain ⟨b, hb, h⟩ := Option.bind_eq_some_iff.mp h
    obtain ⟨bs', hbs, h⟩ := Option.bind_eq_some_iff.mp h
    cases h
    obtain ⟨ha, has⟩ := List.forall_mem_cons.mp hg
    rw [ha b hb, ih has hbs, List.map_cons]

theorem foldlM_induction {f : β → α → Except ε β} {P : β → Prop} {as : List α}
    (hstep : ∀ a ∈ as, ∀ b b', P b → f b a = .ok b' → P b') {b b' : β} (hb : P b) (h : as.foldlM f b = .ok b') :
    P b' := by
  induction as generalizing b with
  | nil =>
    cases h
    exact hb
  | cons a as ih =>
    rw [List.foldlM_cons] at h
    obtain ⟨c, hc, hrest⟩ := bind_eq_ok_iff.mp h
    obtain ⟨ha, has⟩ := List.forall_mem_cons.mp hstep
    exact ih has (ha b c hb hc) hrest

theorem exists_of_foldlM_error {f : β → α → Except ε β} {as : List α} {b : β} {e : ε}
    (h : as.foldlM f b = .error e) : ∃ a ∈ as, ∃ b, f b a = .error e := by
  induction as generalizing b with
  | nil => cases h
  | cons a as ih =>
    rw [List.foldlM_cons] at h
    cases hstep : f b a with
    | error e' =>
      rw [hstep] at h
      cases h
      exact ⟨a, List.mem_cons_self, b, hstep⟩
    | ok c =>
      rw [hstep] at h
      obtain ⟨a', ha', hstep'⟩ := ih h
      exact ⟨a', List.mem_cons_of_mem a ha', hstep'⟩

end

/-! ## Sorting -/

theorem pairwise_lt_mergeSort {α : Type} (key : α → String) {l : List α}
    (h : l.Pairwise fun a b => key a ≠ key b) :
    (l.mergeSort fun a b => key a ≤ key b).Pairwise fun a b => key a < key b := by
  have htrans : ∀ a b c : α, decide (key a ≤ key b) = true → decide (key b ≤ key c) = true →
      decide (key a ≤ key c) = true := by
    intro a b c hab hbc
    rw [decide_eq_true_eq] at hab hbc ⊢
    exact String.le_trans hab hbc
  have htotal : ∀ a b : α, (decide (key a ≤ key b) || decide (key b ≤ key a)) = true := by
    intro a b
    rw [Bool.or_eq_true, decide_eq_true_eq, decide_eq_true_eq]
    exact String.le_total _ _
  have hsorted := List.pairwise_mergeSort htrans htotal l
  have hdistinct : (l.mergeSort fun a b => key a ≤ key b).Pairwise fun a b => key a ≠ key b :=
    ((List.mergeSort_perm l _).pairwise_iff fun hab => Ne.symm hab).mpr h
  exact (hsorted.and hdistinct).imp fun hab =>
    Std.lt_of_le_of_ne (of_decide_eq_true hab.1) hab.2

end SolidityAst
