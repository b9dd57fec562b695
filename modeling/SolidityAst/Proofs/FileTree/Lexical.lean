import SolidityAst.Proofs.FileTree.Lookup
import SolidityAst.Proofs.Path.Absolute

/-!
Where a path leads when no link is on the way.

The text of a path alone gives its components.  A look-up that meets no link comes to just that place, so
for paths without links the text and the tree agree.
-/
namespace SolidityAst.FileTree

open SolidityAst.Path

variable {t : FileTree} {how : Lookup} {links : Nat} {here place cwd : Place} {ns : List String}
  {rooted : Bool}

/-- No place on the way to a place is a link, nor is the place itself. -/
def LinkFree (t : FileTree) (place : Place) : Prop :=
  ∀ q, q <+: place → ∀ target, t.get? q ≠ some (.link target)

theorem Leads.eq_append_of_linkFree {node : Node} (h : Leads t how links here ns place node)
    (hfree : LinkFree t (here ++ ns)) (hns : ∀ n ∈ ns, IsName n) : place = here ++ ns := by
  induction h with
  | here => exact (List.append_nil _).symm
  | dot => exact absurd rfl (hns "." List.mem_cons_self).2.1
  | up => exact absurd rfl (hns ".." List.mem_cons_self).2.2.1
  | into _ _ _ _ ih =>
    rw [List.append_cons] at hfree
    rw [ih hfree fun m hm => hns m (List.mem_cons_of_mem _ hm), ← List.append_cons]
  | file => rfl
  | link => rfl
  | jump _ _ hget =>
    rw [List.append_cons] at hfree
    exact absurd hget (hfree _ (List.prefix_append _ _) _)

theorem follow_directories (ht : t.WellFormed) (hns : ∀ n ∈ ns, IsName n)
    (h : t.get? (here ++ ns) = some .directory) :
    follow t how links here ns = .ok (.node (here ++ ns) .directory) := by
  induction ns generalizing here with
  | nil => rw [follow_nil, List.append_nil]
  | cons n ns ih =>
    have hn := hns n List.mem_cons_self
    have hassoc : here ++ n :: ns = here ++ [n] ++ ns := by simp
    rw [hassoc] at h ⊢
    have hdir : t.get? (here ++ [n]) = some .directory := by
      rcases ht.get?_above (by rw [h]; simp) (List.prefix_append (here ++ [n]) ns) with heq | hdir
      · rw [heq, h]
      · exact hdir
    rw [follow_name t how links here ns hn.2.1 hn.2.2.1, hdir]
    exact ih (fun m hm => hns m (List.mem_cons_of_mem _ hm)) h

theorem follow_replicate_ups (k : Nat) (rest : List String) :
    follow t how links here (List.replicate k ".." ++ rest) =
      follow t how links (here.take (here.length - k)) rest := by
  induction k generalizing here with
  | zero => simp
  | succ k ih =>
    have hlen : min (here.length - 1 - k) (here.length - 1) = here.length - (k + 1) := by omega
    rw [List.replicate_succ, List.cons_append, follow_up, ih, List.length_dropLast,
      List.dropLast_eq_take, List.take_take, hlen]

/-! ## The place of a path by its text -/

/-- The place that the text of a path names, seen from the current directory. -/
def placeOf (cwd : Place) (path : String) : Place := components (ofNames true cwd) path

theorem placeOf_ofNames (hcwd : ∀ n ∈ cwd, IsName n) {k : Nat} {down : List String}
    (hdown : ∀ n ∈ down, IsName n) (hk : rooted = true → k = 0) :
    placeOf cwd (ofNames rooted (List.replicate k ".." ++ down)) =
      (origin cwd rooted).take ((origin cwd rooted).length - k) ++ down := by
  have hcleaned : Cleaned rooted (List.replicate k ".." ++ down) := ⟨k, down, rfl, hdown, hk⟩
  have hc : Cleaned true cwd := Cleaned.of_isName hcwd
  cases rooted with
  | true =>
    rw [placeOf, components_of_absolute (isAbsolute_ofNames hcleaned), cleanNames_ofNames hcleaned,
      hk rfl]
    simp [origin]
  | false =>
    have hback : ∀ n ∈ cwd.reverse, IsName n := fun n hn => hcwd n (List.mem_reverse.mp hn)
    rw [placeOf, components_of_relative (isAbsolute_ofNames hc) (isAbsolute_ofNames hcleaned),
      foldl_names_ofNames _ _ hcleaned, cleanNames_ofNames hc, List.foldl_append,
      foldl_cleanStep_ups k hback, foldl_cleanStep_isName _ _ hdown, List.reverse_append,
      List.reverse_reverse, List.reverse_drop, List.reverse_reverse, List.length_reverse]
    rfl

/-- A look-up that meets no link comes to the place that the text names. -/
theorem locate_linkFree (hcwd : ∀ n ∈ cwd, IsName n) (h : Cleaned rooted ns) {last : Bool}
    {node : Node} (hfree : LinkFree t (placeOf cwd (ofNames rooted ns)))
    (hloc : t.locate cwd (ofNames rooted ns) last = .ok (.node place node)) :
    place = placeOf cwd (ofNames rooted ns) := by
  rw [locate_ofNames _ _ h] at hloc
  obtain ⟨k, down, rfl, hdown, hk⟩ := h
  rw [placeOf_ofNames hcwd hdown hk] at hfree ⊢
  rw [follow_replicate_ups] at hloc
  exact (leads_of_follow hloc).eq_append_of_linkFree hfree hdown

/-- A directory is found at the place that the text names. -/
theorem locate_placeOf (ht : t.WellFormed) (hcwd : ∀ n ∈ cwd, IsName n) (h : Cleaned rooted ns)
    (last : Bool) (hdir : t.get? (placeOf cwd (ofNames rooted ns)) = some .directory) :
    t.locate cwd (ofNames rooted ns) last =
      .ok (.node (placeOf cwd (ofNames rooted ns)) .directory) := by
  rw [locate_ofNames _ _ h]
  obtain ⟨k, down, rfl, hdown, hk⟩ := h
  rw [placeOf_ofNames hcwd hdown hk] at hdir ⊢
  rw [follow_replicate_ups]
  exact follow_directories ht hdown hdir

theorem placeOf_concat (hcwd : ∀ n ∈ cwd, IsName n) (h : Cleaned rooted ns) {name : String}
    (hname : IsName name) :
    placeOf cwd (ofNames rooted (ns ++ [name])) = placeOf cwd (ofNames rooted ns) ++ [name] := by
  obtain ⟨k, down, rfl, hdown, hk⟩ := h
  have hall : ∀ n ∈ down ++ [name], IsName n := by
    intro n hn
    rcases List.mem_append.mp hn with hn | hn
    · exact hdown n hn
    · rwa [List.mem_singleton.mp hn]
  rw [List.append_assoc, placeOf_ofNames hcwd hall hk, placeOf_ofNames hcwd hdown hk,
    List.append_assoc]

end SolidityAst.FileTree
