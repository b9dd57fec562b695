import SolidityAst.Proofs.Batch.Discovery
import SolidityAst.Proofs.Export.Mirroring

/-!
Which files of a batch share an output path.

An artifact is named for its source without the extension, and a source that is named by the extension
alone keeps it.  So in one directory `.sol` and `.sol.sol` have the same artifact.  No other two files of a
batch do.
-/
namespace SolidityAst.Batch

open Export FileTree SolidityAst.Path Text

/-! ## Artifacts with the same name -/

theorem stem_of_endsWith (n : Naming) {b : String} (h : endsWith b n.extension) :
    (b = n.extension ∧ n.stem b = n.extension) ∨
      (b ≠ n.extension ∧ b = n.stem b ++ n.extension) := by
  obtain ⟨s, rfl⟩ := endsWith_iff.mp h
  by_cases hs : s = ""
  · left
    rw [hs, String.empty_append]
    exact ⟨rfl, stem_extension n⟩
  · right
    rw [stem_append n hs]
    exact ⟨by simpa using hs, rfl⟩

theorem artifact_eq_iff (n : Naming) {b c : String} (hb : endsWith b n.extension)
    (hc : endsWith c n.extension) (hne : b ≠ c) :
    n.artifact b = n.artifact c ↔
      (b = n.extension ∧ c = n.extension ++ n.extension) ∨
        (b = n.extension ++ n.extension ∧ c = n.extension) := by
  have hstem : n.artifact b = n.artifact c ↔ n.stem b = n.stem c := String.append_left_inj n.suffix
  rw [hstem]
  rcases stem_of_endsWith n hb with ⟨hb, hsb⟩ | ⟨hb, hsb⟩ <;>
    rcases stem_of_endsWith n hc with ⟨hc, hsc⟩ | ⟨hc, hsc⟩
  · exact absurd (hb.trans hc.symm) hne
  · rw [hsb]
    constructor
    · intro he
      rw [← he] at hsc
      exact .inl ⟨hb, hsc⟩
    · rintro (⟨-, hcc⟩ | ⟨-, hcc⟩)
      · exact (String.append_left_inj n.extension).mp (hcc.symm.trans hsc)
      · exact absurd hcc hc
  · rw [hsc]
    constructor
    · intro he
      rw [he] at hsb
      exact .inr ⟨hsb, hc⟩
    · rintro (⟨hbb, -⟩ | ⟨hbb, -⟩)
      · exact absurd hbb hb
      · exact (String.append_left_inj n.extension).mp (hsb.symm.trans hbb)
  · constructor
    · intro he
      rw [he, ← hsc] at hsb
      exact absurd hsb hne
    · rintro (⟨hbb, -⟩ | ⟨-, hcc⟩)
      · exact absurd hbb hb
      · exact absurd hcc hc

/-! ## Files with the same output path -/

-- A file that a search for one extension finds: the directory it is in and its name.
theorem exists_dir_base_of_mem {t : FileTree} {cwd : Place} {root extension : String}
    {exclude files : List String} (ht : t.WellFormed)
    (h : discover t cwd root [extension] exclude = .ok files) {file : String} (hf : file ∈ files) :
    ∃ d b, (∀ n ∈ d ++ [b], IsName n) ∧ endsWith b extension ∧
      file = ofNames (isAbsolute root) (cleanNames root ++ (d ++ [b])) := by
  obtain ⟨d, b, hnames, hext, hfile⟩ := exists_names_of_mem ht h hf
  refine ⟨d, b, hnames, ?_, hfile⟩
  have hone : (extension ≠ "" && endsWith b extension) = true := by
    simpa [hasExtension, wantedExtensions] using hext
  rw [Bool.and_eq_true] at hone
  exact hone.2

theorem dir_below {p : String} {d : List String} {b : String} (h : ∀ n ∈ d ++ [b], IsName n) :
    dir (ofNames (isAbsolute p) (cleanNames p ++ (d ++ [b]))) =
      ofNames (isAbsolute p) (cleanNames p ++ d) := by
  rw [dir_ofNames ((cleaned_cleanNames p).append h), ← List.append_assoc, List.dropLast_concat]

theorem base_below {p : String} {d : List String} {b : String} (h : ∀ n ∈ d ++ [b], IsName n) :
    base (ofNames (isAbsolute p) (cleanNames p ++ (d ++ [b]))) = b := by
  have hc := (cleaned_cleanNames p).append h
  rw [← List.append_assoc] at hc ⊢
  exact base_ofNames hc

theorem outputPath_below {cwd : String} (n : Naming) (input output : String) (hcwd : isAbsolute cwd = true)
    (hslash : '/' ∉ n.suffix.toList) (hdot : ∃ c ∈ n.suffix.toList, c ≠ '.')
    {d : List String} {b : String} (h : ∀ m ∈ d ++ [b], IsName m) :
    (∀ m ∈ d ++ [n.artifact b], IsName m) ∧
      outputPath cwd n (ofNames (isAbsolute input) (cleanNames input ++ (d ++ [b]))) input output =
        .ok (ofNames (isAbsolute output) (cleanNames output ++ (d ++ [n.artifact b]))) := by
  have hb : IsName b := h b (by simp)
  have hartifact : ∀ m ∈ d ++ [n.artifact b], IsName m := by
    intro m hm
    rcases List.mem_append.mp hm with hm | hm
    · exact h m (List.mem_append_left _ hm)
    · rw [List.mem_singleton.mp hm]
      exact isName_artifact n hb.2.2.2 hslash hdot
  have hcomponents := components_ofNames_append (p := input) hcwd h
  rw [← List.append_assoc (components cwd input)] at hcomponents
  rw [outputPath_of_append n output hcwd hslash hdot hcomponents, join_names output (by simp) hartifact]
  exact ⟨hartifact, rfl⟩

/-- Two files of a batch have the same output path exactly if they are `.sol` and `.sol.sol` of one
directory. -/
theorem outputPath_shared_iff {t : FileTree} {cwd : Place} {cwdPath input output : String}
    {exclude files : List String} {f g : String} (ht : t.WellFormed)
    (hcwd : isAbsolute cwdPath = true) (hfiles : discover t cwd input [".sol"] exclude = .ok files)
    (hf : f ∈ files) (hg : g ∈ files) (hne : f ≠ g) :
    ∃ p q, outputPath cwdPath .default f input output = .ok p ∧
      outputPath cwdPath .default g input output = .ok q ∧
      (p = q ↔ dir f = dir g ∧
        ((base f = ".sol" ∧ base g = ".sol.sol") ∨ (base f = ".sol.sol" ∧ base g = ".sol"))) := by
  obtain ⟨d, b, hnames, hb, rfl⟩ := exists_dir_base_of_mem ht hfiles hf
  obtain ⟨d', b', hnames', hb', rfl⟩ := exists_dir_base_of_mem ht hfiles hg
  have hslash : '/' ∉ Naming.default.suffix.toList := by decide
  have hdot : ∃ c ∈ Naming.default.suffix.toList, c ≠ '.' := ⟨'_', by decide, by decide⟩
  obtain ⟨hart, hp⟩ := outputPath_below .default input output hcwd hslash hdot hnames
  obtain ⟨hart', hq⟩ := outputPath_below .default input output hcwd hslash hdot hnames'
  refine ⟨_, _, hp, hq, ?_⟩
  have hd : ∀ n ∈ d, IsName n := fun n hn => hnames n (List.mem_append_left _ hn)
  have hd' : ∀ n ∈ d', IsName n := fun n hn => hnames' n (List.mem_append_left _ hn)
  rw [dir_below hnames, dir_below hnames', base_below hnames, base_below hnames',
    ofNames_append_inj hart hart', ofNames_append_inj hd hd', List.append_singleton_inj]
  refine and_congr_right fun hdd => ?_
  have hbb : b ≠ b' := by
    rintro rfl
    exact hne (by rw [hdd])
  exact artifact_eq_iff .default hb hb' hbb

-- A directory with the two files and a third.
def dottedTree : FileTree :=
  (((FileTree.empty.insert ["in"] .directory).insert ["in", ".sol"] (.file [] false)).insert
    ["in", ".sol.sol"] (.file [] false)).insert ["in", "A.sol"] (.file [] false)

theorem wellFormed_dottedTree : dottedTree.WellFormed := by decide

theorem discover_dottedTree :
    discover dottedTree [] "in" [".sol"] [] = .ok ["in/.sol", "in/.sol.sol", "in/A.sol"] := by
  have hfound : gather dottedTree [] "in" [".sol"] [] = .ok ["in/.sol", "in/.sol.sol", "in/A.sol"] := by decide
  rw [discover_of_gather hfound, List.mergeSort_of_pairwise (by decide)]

/-- The two files have one output path. -/
theorem outputPath_shared_dotted :
    dottedTree.WellFormed ∧
      discover dottedTree [] "in" [".sol"] [] = .ok ["in/.sol", "in/.sol.sol", "in/A.sol"] ∧
      outputPath "/" .default "in/.sol" "in" "out" = .ok "out/.sol_ast.json" ∧
      outputPath "/" .default "in/.sol.sol" "in" "out" = .ok "out/.sol_ast.json" :=
  ⟨wellFormed_dottedTree, discover_dottedTree, by decide, by decide⟩

theorem outputPath_shared_iff_dotted :
    ∃ p q, outputPath "/" .default "in/.sol.sol" "in" "out" = .ok p ∧
      outputPath "/" .default "in/A.sol" "in" "out" = .ok q ∧ p ≠ q := by
  obtain ⟨p, q, hp, hq, hiff⟩ := outputPath_shared_iff wellFormed_dottedTree
    (by decide : isAbsolute "/" = true) discover_dottedTree
    (by decide : "in/.sol.sol" ∈ ["in/.sol", "in/.sol.sol", "in/A.sol"])
    (by decide : "in/A.sol" ∈ ["in/.sol", "in/.sol.sol", "in/A.sol"]) (by decide)
  exact ⟨p, q, hp, hq, fun he => absurd (hiff.mp he).2 (by decide)⟩

end SolidityAst.Batch
