import SolidityAst.Batch.Discovery
import SolidityAst.Proofs.Path.Absolute
import SolidityAst.Proofs.Text.Trim

/-!
Which paths patterns exclude.

A pattern without the slashes at its ends is a list of names.  A single name excludes the paths in which it occurs,
and several names exclude the paths that start with them.  So a path below an excluded one is excluded, and of several
patterns neither the order nor the number of times matters.
-/
namespace SolidityAst.Batch

open SolidityAst.Path Text

variable {relative pattern p : String} {patterns : List String}

/-! ## Patterns -/

/-- What is left of a pattern without the slashes at its ends. -/
def IsCore (pattern p : String) : Prop :=
  ∃ before after, pattern.toList = List.replicate before '/' ++ (p.toList ++ List.replicate after '/') ∧
    p.toList.head? ≠ some '/' ∧ p.toList.getLast? ≠ some '/'

theorem isCore_iff : IsCore pattern p ↔ stripSlashes pattern = p := by
  have hslash : ∀ o : Option Char, o ≠ some '/' ↔ ∀ c ∈ o, (c == '/') = false := by
    intro o
    cases o <;> simp
  unfold IsCore stripSlashes
  simp only [hslash]
  constructor
  · rintro ⟨before, after, hpattern, hfirst, hlast⟩
    have hslashes : ∀ n, ∀ c ∈ List.replicate n '/', (c == '/') = true := fun n c hc =>
      beq_iff_eq.mpr (List.eq_of_mem_replicate hc)
    rw [hpattern, trimWhile_eq_of_append (hslashes before) (hslashes after) hfirst hlast, String.ofList_toList]
  · rintro rfl
    rw [String.toList_ofList]
    obtain ⟨front, back, hpattern, hfront, hback⟩ := exists_eq_append_trimWhile (· == '/') pattern.toList
    refine ⟨front.length, back.length, ?_, fun c hc => ?_, fun c hc => ?_⟩
    · rwa [← List.eq_replicate_of_mem fun c hc => beq_iff_eq.mp (hfront c hc),
        ← List.eq_replicate_of_mem fun c hc => beq_iff_eq.mp (hback c hc)]
    · exact @first_trimWhile (· == '/') _ c hc
    · exact @last_trimWhile (· == '/') _ c hc

/-! ## Segments -/

theorem names_eq_singleton_iff : names p = [p] ↔ '/' ∉ p.toList := by
  constructor
  · intro h
    have hmem : p ∈ names p := by simp [h]
    exact notMem_of_mem_fields hmem
  · exact names_of_noSlash

theorem two_le_length_names_iff : 2 ≤ (names p).length ↔ '/' ∈ p.toList := by
  have hone := @names_eq_singleton_iff p
  have hjoin := intercalate_names p
  match hnames : names p with
  | [] => exact absurd hnames (names_ne_nil p)
  | [name] =>
    -- The only name is the text itself.
    rw [hnames, String.intercalate_singleton] at hjoin
    rw [hjoin] at hnames
    exact iff_of_false (by simp) (hone.mp hnames)
  | first :: second :: more =>
    refine iff_of_true (by simp) (Decidable.not_not.mp fun hslash => ?_)
    rw [hone.mpr hslash] at hnames
    cases hnames

/-- The names of a text start those of another exactly when the other is the text or goes on behind it after a
slash. -/
theorem names_prefix_iff : names p <+: names relative ↔ relative = p ∨ ∃ rest, relative = p ++ "/" ++ rest := by
  constructor
  · rintro ⟨more, hmore⟩
    have hrelative := intercalate_names relative
    rw [← hmore] at hrelative
    by_cases hnil : more = []
    · left
      rw [← hrelative, hnil, List.append_nil, intercalate_names]
    · right
      refine ⟨"/".intercalate more, ?_⟩
      rw [← hrelative, String.intercalate_append_of_ne_nil (names_ne_nil p) hnil, intercalate_names]
  · rintro (rfl | ⟨rest, rfl⟩)
    · exact List.prefix_rfl
    · rw [names_append_slash]
      exact List.prefix_append _ _

/-! ## Exclusion -/

/-- A pattern excludes a path: it is one name of the path, or several names with which the path starts. -/
def Covers (pattern relative : String) : Prop :=
  ∃ p, IsCore pattern p ∧ p ≠ "" ∧
    (names p = [p] ∧ p ∈ names relative ∨ 2 ≤ (names p).length ∧ names p <+: names relative)

theorem excludes_iff : excludes relative pattern = true ↔ Covers pattern relative := by
  unfold Covers
  simp only [isCore_iff, exists_eq_left', names_eq_singleton_iff, two_le_length_names_iff, names_prefix_iff]
  unfold excludes
  by_cases hempty : stripSlashes pattern = ""
  · simp [hempty]
  by_cases hslash : '/' ∈ (stripSlashes pattern).toList
  · simp [hempty, hslash, startsWith_iff]
  · simp [hempty, hslash, names]

theorem isExcluded_iff : isExcluded relative patterns = true ↔ ∃ pattern ∈ patterns, Covers pattern relative := by
  unfold isExcluded
  simp only [List.any_eq_true, excludes_iff]

-- The names of a path start those of every path below it.
theorem Covers.below (h : Covers pattern relative) (rest : String) : Covers pattern (relative ++ "/" ++ rest) := by
  obtain ⟨p, hcore, hne, hcovers⟩ := h
  rw [Covers, names_append_slash]
  refine ⟨p, hcore, hne, hcovers.imp (fun hone => ?_) fun hseveral => ?_⟩
  · exact ⟨hone.1, List.mem_append_left _ hone.2⟩
  · exact ⟨hseveral.1, hseveral.2.trans (List.prefix_append _ _)⟩

theorem isExcluded_below (rest : String) (h : isExcluded relative patterns = true) :
    isExcluded (relative ++ "/" ++ rest) patterns = true := by
  obtain ⟨pattern, hmem, hcovers⟩ := isExcluded_iff.mp h
  exact isExcluded_iff.mpr ⟨pattern, hmem, hcovers.below rest⟩

/-- A path is excluded exactly by a pattern that, without the slashes at its ends, is a name of the path or several
names with which the path starts.  So what is below an excluded path is excluded; patterns that are added exclude
no less, and their order does not matter. -/
theorem isExcluded_by_segments (relative : String) (patterns : List String) :
    (isExcluded relative patterns = true ↔ ∃ pattern ∈ patterns, Covers pattern relative) ∧
      (isExcluded relative patterns = true → ∀ rest, isExcluded (relative ++ "/" ++ rest) patterns = true) ∧
      (∀ more, patterns ⊆ more → isExcluded relative patterns = true → isExcluded relative more = true) ∧
      ∀ other, patterns.Perm other → isExcluded relative other = isExcluded relative patterns := by
  refine ⟨isExcluded_iff, fun h rest => isExcluded_below rest h, fun more hmore h => ?_, fun other hperm => ?_⟩
  · obtain ⟨pattern, hmem, hcovers⟩ := isExcluded_iff.mp h
    exact isExcluded_iff.mpr ⟨pattern, hmore hmem, hcovers⟩
  · exact hperm.symm.any_eq

-- A pattern with slashes at its ends, a name that only starts like one of it, and patterns that are added.
theorem isExcluded_by_segments_library :
    isExcluded "lib/forge-std" ["/lib/forge-std//"] = true ∧
      isExcluded "lib/forge-std/src/Test.sol" ["/lib/forge-std//"] = true ∧
      isExcluded "lib/forge-stdx" ["/lib/forge-std//"] = false ∧
      isExcluded "lib/forge-std" ["//", "/lib/forge-std//", "src"] = true ∧
      isExcluded "lib/forge-std" ["src", "/lib/forge-std//", "//"] = true := by
  obtain ⟨-, hbelow, hmore, -⟩ := isExcluded_by_segments "lib/forge-std" ["/lib/forge-std//"]
  obtain ⟨-, -, -, hother⟩ := isExcluded_by_segments "lib/forge-std" ["//", "/lib/forge-std//", "src"]
  have hexcluded : isExcluded "lib/forge-std" ["/lib/forge-std//"] = true := by decide +kernel
  have hadded := hmore ["//", "/lib/forge-std//", "src"] (by simp) hexcluded
  refine ⟨hexcluded, hbelow hexcluded "src/Test.sol", by decide +kernel, hadded, ?_⟩
  rw [hother ["src", "/lib/forge-std//", "//"] (by decide), hadded]

end SolidityAst.Batch
