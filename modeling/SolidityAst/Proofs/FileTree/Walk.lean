import SolidityAst.FileTree.Walk
import SolidityAst.Proofs.FileTree.Lookup

/-!
Directories as a walk opens them.

The entries of a directory are what stands one name below its place.  A directory in a directory that was
opened by a cleaned path is opened at the place below, so from the second level on a walk goes down the tree
that stands there.
-/
namespace SolidityAst.FileTree

open SolidityAst.Path

variable {t : FileTree} {cwd place : Place} {path name : String} {node : Node}

-- The entry that a node at a place makes in the directory around it.
theorem child_eq_some_iff {p : Place} {e : String × Node} :
    (if p.dropLast = place then p.getLast?.map fun name => (name, node) else none) = some e ↔
      p = place ++ [e.1] ∧ node = e.2 := by
  rcases List.eq_nil_or_concat' p with rfl | ⟨init, last, rfl⟩
  · simp
  · obtain ⟨name, found⟩ := e
    rw [List.dropLast_concat, List.getLast?_concat, Option.map_some, List.append_singleton_inj]
    by_cases hinit : init = place
    · simp [hinit]
    · simp [hinit]

theorem mem_children (ht : t.WellFormed) :
    (name, node) ∈ t.children place ↔ t.get? (place ++ [name]) = some node := by
  have hplace : place ++ [name] ≠ [] := by simp
  unfold children
  rw [get?, if_neg hplace, ht.increasing.find?_eq_some, List.mem_filterMap]
  constructor
  · rintro ⟨⟨p, n⟩, hmem, hp⟩
    obtain ⟨rfl, rfl⟩ := child_eq_some_iff.mp hp
    exact hmem
  · intro hmem
    exact ⟨_, hmem, child_eq_some_iff.mpr ⟨rfl, rfl⟩⟩

theorem nodup_children (ht : t.WellFormed) (place : Place) :
    ((t.children place).map Prod.fst).Nodup := by
  unfold children
  rw [List.Nodup, List.pairwise_map, List.pairwise_filterMap]
  refine ht.increasing.imp fun {a b} hlt x hx y hy hxy => ?_
  rw [(child_eq_some_iff.mp hx).1, (child_eq_some_iff.mp hy).1, hxy] at hlt
  exact List.lt_irrefl _ hlt

theorem list_eq_ok_iff {entries : List (String × Node)} :
    t.list cwd path = .ok entries ↔
      ∃ place, t.look cwd path true = .ok (place, .directory) ∧ entries = t.children place := by
  unfold list
  rcases t.look cwd path true with e | ⟨place, node⟩
  · simp
  · cases node <;> simp [eq_comm]

theorem length_le_height (hget : t.get? place ≠ none) : place.length ≤ t.height := by
  have hfold : ∀ l : List (Place × Node), ∀ e ∈ l,
      e.1.length ≤ l.foldr (fun e h => max e.1.length h) 0 := by
    intro l
    induction l with
    | nil => simp
    | cons first rest ih =>
      intro e he
      rw [List.foldr_cons]
      rcases List.mem_cons.mp he with rfl | he
      · exact Nat.le_max_left _ _
      · exact (ih e he).trans (Nat.le_max_right _ _)
  by_cases hp : place = []
  · simp [hp]
  · obtain ⟨e, he, rfl⟩ := exists_entry_of_get? hp hget
    exact hfold _ e he

/-- A directory in a directory that a cleaned path leads to. -/
theorem look_directory_in {rooted : Bool} {init : List String} (h : Cleaned rooted init)
    (hdir : t.look cwd (ofNames rooted init) true = .ok (place, .directory)) (hname : IsName name)
    (hget : t.get? (place ++ [name]) = some .directory) :
    t.look cwd (ofNames rooted (init ++ [name])) true = .ok (place ++ [name], .directory) := by
  rw [look_eq_ok_iff] at hdir ⊢
  exact locate_directory_in h hdir hname hget

end SolidityAst.FileTree
