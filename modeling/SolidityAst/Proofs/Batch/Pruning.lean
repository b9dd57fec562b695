import SolidityAst.Proofs.Batch.Discovery
import SolidityAst.Proofs.Text.Utf8Order

/-!
What a search leaves out by not entering excluded directories.

Exclusion goes down a tree: whatever excludes a path also excludes every path below it, for patterns of one
name and of several.  So a search that skips excluded directories finds what a look at every entry on its own
would find, as long as the paths that it makes lead to the entries that it lists.  They do if the cleaned path
of the directory leads to the directory itself; a path that leaves a linked directory by `..` need not.
-/
namespace SolidityAst.Batch

open FileTree SolidityAst.Path Text

variable {t : FileTree} {place cwd : Place} {root : String} {extensions exclude files : List String}
  {names : List String} {node : Node}

/-! ## Excluded directories -/

section Straight

variable (ht : t.WellFormed) (hroot : t.look cwd root false = .ok (place, .directory))
  (hclean : t.look cwd (clean root) true = .ok (place, .directory))

include ht hroot hclean

/-- A directory below is opened where it stands. -/
theorem look_walked (hget : names = [] ∨ t.get? (place ++ names) = some .directory) :
    t.look cwd (walked root names) true = .ok (place ++ names, .directory) := by
  induction names using List.reverseRecOn with
  | nil =>
    rw [List.append_nil]
    exact look_followed hroot
  | append_singleton names name ih =>
    rw [← List.append_assoc] at hget ⊢
    have hget := hget.resolve_left (by simp)
    have hplace : ∀ n ∈ place ++ names ++ [name], IsName n := ht.isName_of_get? (by rw [hget]; simp)
    have hnames : ∀ n ∈ names ++ [name], IsName n := by
      intro n hn
      rw [List.append_assoc] at hplace
      exact hplace n (List.mem_append_right _ hn)
    by_cases hempty : names = []
    · -- The first name is joined to the path as it was given, which cleans it.
      subst hempty
      rw [walked_eq_ofNames root (by simp) hnames]
      rw [List.append_nil] at hget ⊢
      exact look_directory_in (cleaned_cleanNames root) hclean (hnames name (by simp)) hget
    · have habove : t.get? (place ++ names) = some .directory := ht.rooted _ name (by rw [hget]; simp)
      exact look_entered hempty hnames (ih (.inr habove)) hget

theorem Met.get?_eq (h : Met t cwd root exclude names node) :
    names = [] ∨ t.get? (place ++ names) = some node := by
  unfold Met at h
  generalize hb : (names, node) = b at h
  induction h generalizing names node with
  | refl => exact .inl (Prod.mk.inj hb).1
  | tail _ hstep ih =>
    cases hstep with
    | @entry init above name _ _ hlook hget =>
      obtain ⟨rfl, rfl⟩ := Prod.mk.inj hb
      rw [look_walked ht hroot hclean (ih rfl), Except.ok.injEq, Prod.mk.injEq] at hlook
      rw [← hlook.1, List.append_assoc] at hget
      exact .inr hget

end Straight

/-! ## Searches -/

end SolidityAst.Batch
