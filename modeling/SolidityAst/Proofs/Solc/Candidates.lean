import SolidityAst.Proofs.Path.Absolute
import SolidityAst.Proofs.Solc.Release
import SolidityAst.Solc.Toolchain

/-!
The places of installed releases.

Every place of a release lies below the home directory, at names that tell the release.  One name starts with
a digit only where it is the release itself, so no two of the five ways to name a place can be confused, and
different releases have no place in common.
-/
namespace SolidityAst.Solc

open Text SolidityAst.Path Version

-- The names of the candidate paths below the home directory.
def candidateNames (v : String) : List (List String) :=
  [[".solc-select", "artifacts", "solc-" ++ v, "solc-" ++ v],
    [".solc-select", "artifacts", "solc-" ++ v, "solc"],
    [".solc-select", "artifacts", v, "solc-" ++ v],
    [".solcx", "solc-v" ++ v],
    [".solcx", "solc-" ++ v]]

/-! ## Releases in names -/

namespace Version.IsRelease

variable {v : String}

theorem noSlash (h : IsRelease v) : '/' ∉ v.toList := by
  obtain ⟨major, minor, patch, ⟨-, hmajor⟩, ⟨-, hminor⟩, ⟨-, hpatch⟩, hv⟩ := h
  have hdigits : ∀ {cs : List Char}, cs.all isDigit = true → '/' ∉ cs := by
    intro cs hcs hmem
    cases List.all_eq_true.mp hcs '/' hmem
  simp [hv, hdigits hmajor, hdigits hminor, hdigits hpatch]

-- A text that starts with something else is no release.
theorem ne_of_head (h : IsRelease v) {u : String} (hu : u.toList.head?.any isDigit = false) : v ≠ u := by
  obtain ⟨a, cs, b, hv, ha, -⟩ := h.ends
  rintro rfl
  rw [hv, List.head?_cons, Option.any_some, ha] at hu
  cases hu

theorem ne_append (h : IsRelease v) {p : String} (u : String)
    (hp : p.toList.head?.any isDigit = false) (hne : p.toList ≠ []) : v ≠ p ++ u := by
  apply h.ne_of_head
  rw [String.toList_append, List.head?_append_of_ne_nil _ hne]
  exact hp

theorem isName (h : IsRelease v) : IsName v :=
  ⟨h.ne_of_head (by decide), h.ne_of_head (by decide), h.ne_of_head (by decide), h.noSlash⟩

-- Behind a name of three letters or more there is always a name, never `.` or `..`.
theorem isName_append (h : IsRelease v) {p : String} (hp : IsName p) (hlong : 2 < p.toList.length) :
    IsName (p ++ v) := by
  have hlength : (p ++ v).toList.length = p.toList.length + v.toList.length := by
    rw [String.toList_append, List.length_append]
  have hne : ∀ u : String, u.toList.length ≤ 2 → p ++ v ≠ u := by
    rintro u hu rfl
    omega
  refine ⟨hne "" (by decide), hne "." (by decide), hne ".." (by decide), ?_⟩
  rw [String.toList_append, List.mem_append]
  exact not_or.mpr ⟨hp.2.2.2, h.noSlash⟩

end Version.IsRelease

/-! ## Candidate paths as names -/

section

variable {v w : String}

theorem isName_of_mem_candidateNames (h : IsRelease v) :
    ∀ ns ∈ candidateNames v, ∀ n ∈ ns, IsName n := by
  have hdash : IsName ("solc-" ++ v) := h.isName_append (by decide) (by decide)
  have hletter : IsName ("solc-v" ++ v) := h.isName_append (by decide) (by decide)
  have hselect : IsName ".solc-select" := by decide
  have hartifacts : IsName "artifacts" := by decide
  have hsolc : IsName "solc" := by decide
  have hsolcx : IsName ".solcx" := by decide
  simp [candidateNames, h.isName, hdash, hletter, hselect, hartifacts, hsolc, hsolcx]

theorem join_join_names (p : String) (ms ns : List String) (hms : ms ≠ []) (hns : ns ≠ [])
    (h : ∀ n ∈ ms ++ ns, IsName n) :
    join (join (p :: ms) :: ns) = ofNames (isAbsolute p) (cleanNames p ++ (ms ++ ns)) := by
  have hm : ∀ n ∈ ms, IsName n := fun n hn => h n (List.mem_append_left _ hn)
  have hn : ∀ n ∈ ns, IsName n := fun n hn => h n (List.mem_append_right _ hn)
  have hcleaned := (cleaned_cleanNames p).append hm
  rw [join_names p hms hm, join_names _ hns hn, isAbsolute_ofNames hcleaned,
    cleanNames_ofNames hcleaned, List.append_assoc]

theorem candidatePaths_eq (home : String) (h : IsRelease v) :
    candidatePaths home v =
      (candidateNames v).map fun ns => ofNames (isAbsolute home) (cleanNames home ++ ns) := by
  have hnames := isName_of_mem_candidateNames h
  have hfirst := join_join_names home [".solc-select", "artifacts", "solc-" ++ v] ["solc-" ++ v]
    (by simp) (by simp) (hnames _ (by simp [candidateNames]))
  have hsecond := join_join_names home [".solc-select", "artifacts", "solc-" ++ v] ["solc"]
    (by simp) (by simp) (hnames _ (by simp [candidateNames]))
  have hthird : join [home, ".solc-select", "artifacts", v, "solc-" ++ v] = _ :=
    join_names home (by simp) (hnames _ (by simp [candidateNames]))
  have hfourth := join_join_names home [".solcx"] ["solc-v" ++ v]
    (by simp) (by simp) (hnames _ (by simp [candidateNames]))
  have hfifth := join_join_names home [".solcx"] ["solc-" ++ v]
    (by simp) (by simp) (hnames _ (by simp [candidateNames]))
  unfold candidatePaths
  dsimp only
  rewrite [hfirst, hsecond, hthird, hfourth, hfifth]
  rfl

/-! ## No place in common -/

-- Below each of the two directories one name tells the release.
theorem mem_candidateNames {ns : List String} (h : ns ∈ candidateNames v) :
    (∃ label last, ns = [".solc-select", "artifacts", label, last] ∧ (label = "solc-" ++ v ∨ label = v)) ∨
      ∃ label, ns = [".solcx", label] ∧ (label = "solc-v" ++ v ∨ label = "solc-" ++ v) := by
  simp only [candidateNames, List.mem_cons, List.not_mem_nil, or_false] at h
  rcases h with rfl | rfl | rfl | rfl | rfl
  · exact .inl ⟨_, _, rfl, .inl rfl⟩
  · exact .inl ⟨_, _, rfl, .inl rfl⟩
  · exact .inl ⟨_, _, rfl, .inr rfl⟩
  · exact .inr ⟨_, rfl, .inl rfl⟩
  · exact .inr ⟨_, rfl, .inr rfl⟩

theorem eq_of_artifact_label (hv : IsRelease v) (hw : IsRelease w) {label : String}
    (h : label = "solc-" ++ v ∨ label = v) (h' : label = "solc-" ++ w ∨ label = w) : v = w := by
  rcases h with rfl | rfl
  · rcases h' with h' | h'
    · exact (String.append_right_inj _).mp h'
    · exact absurd h'.symm (hw.ne_append v (by decide) (by decide))
  · rcases h' with h' | h'
    · exact absurd h' (hv.ne_append w (by decide) (by decide))
    · exact h'

theorem eq_of_solcx_label (hv : IsRelease v) (hw : IsRelease w) {label : String}
    (h : label = "solc-v" ++ v ∨ label = "solc-" ++ v)
    (h' : label = "solc-v" ++ w ∨ label = "solc-" ++ w) : v = w := by
  have hsplit : ∀ u : String, "solc-v" ++ u = "solc-" ++ ("v" ++ u) := by
    intro u
    rw [← String.append_assoc]
    rfl
  rcases h with rfl | rfl
  · rcases h' with h' | h'
    · exact (String.append_right_inj _).mp h'
    · rw [hsplit, String.append_right_inj] at h'
      exact absurd h'.symm (hw.ne_append v (by decide) (by decide))
  · rcases h' with h' | h'
    · rw [hsplit, String.append_right_inj] at h'
      exact absurd h' (hv.ne_append w (by decide) (by decide))
    · exact (String.append_right_inj _).mp h'

/-- Below one home directory, different releases have no place in common. -/
theorem candidatePaths_disjoint (home : String) (hv : IsRelease v) (hw : IsRelease w) (hne : v ≠ w) :
    List.Disjoint (candidatePaths home v) (candidatePaths home w) := by
  rw [candidatePaths_eq home hv, candidatePaths_eq home hw]
  intro path hpath hpath'
  obtain ⟨ns, hns, rfl⟩ := List.mem_map.mp hpath
  obtain ⟨ns', hns', heq⟩ := List.mem_map.mp hpath'
  obtain rfl : ns' = ns :=
    (ofNames_append_inj (isName_of_mem_candidateNames hw ns' hns')
      (isName_of_mem_candidateNames hv ns hns)).mp heq
  apply hne
  rcases mem_candidateNames hns with ⟨label, last, rfl, hlabel⟩ | ⟨label, rfl, hlabel⟩
  · rcases mem_candidateNames hns' with ⟨label', last', heq, hlabel'⟩ | ⟨label', heq, -⟩
    · cases heq
      exact eq_of_artifact_label hv hw hlabel hlabel'
    · cases congrArg List.length heq
  · rcases mem_candidateNames hns' with ⟨label', last', heq, -⟩ | ⟨label', heq, hlabel'⟩
    · cases congrArg List.length heq
    · cases heq
      exact eq_of_solcx_label hv hw hlabel hlabel'

end

end SolidityAst.Solc
