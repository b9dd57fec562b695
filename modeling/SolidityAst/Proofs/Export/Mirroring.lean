import SolidityAst.Export.OutputPath
import SolidityAst.Proofs.Path.Absolute

/-!
Where artifacts are written.

The main statement is that the output tree follows the input tree: a file that lies below the input
directory has its artifact at the same names below the output directory, a file elsewhere has none, and
how the two paths are spelled does not matter.
-/
namespace SolidityAst.Export

open SolidityAst.Path Text

/-! ## Names of artifacts -/

/-- One extension is dropped from a name that is more than the extension. -/
theorem stem_append (n : Naming) {s : String} (h : s ≠ "") : n.stem (s ++ n.extension) = s := by
  unfold Naming.stem
  by_cases he : n.extension = ""
  · simp [he]
  · have hne : s ++ n.extension ≠ n.extension := by simpa using h
    have hb : beforeEnd? n.extension.toList (s ++ n.extension).toList = some s.toList :=
      beforeEnd?_eq_some.mpr String.toList_append
    rw [if_neg (by simp [he, hne]), hb, Option.map_some, Option.getD_some, String.ofList_toList]

theorem stem_extension (n : Naming) : n.stem n.extension = n.extension := by
  unfold Naming.stem
  rw [if_pos (by simp)]

theorem stem_of_not_endsWith (n : Naming) {b : String} (h : ¬ endsWith b n.extension) :
    n.stem b = b := by
  have hnone : beforeEnd? n.extension.toList b.toList = none := by
    rw [endsWith, Option.not_isSome_iff_eq_none] at h
    exact h
  unfold Naming.stem
  rw [hnone]
  simp

/-- Whatever is dropped from a name, what is left is the start of it. -/
theorem exists_eq_stem_append (n : Naming) (b : String) : ∃ r, b = n.stem b ++ r := by
  by_cases h : endsWith b n.extension
  · obtain ⟨s, rfl⟩ := endsWith_iff.mp h
    by_cases hs : s = ""
    · rw [hs, String.empty_append, stem_extension]
      exact ⟨"", by simp⟩
    · exact ⟨n.extension, by rw [stem_append n hs]⟩
  · exact ⟨"", by rw [stem_of_not_endsWith n h, String.append_empty]⟩

/-- A suffix makes a proper name of anything if it has no slash and is not made of dots alone. -/
theorem isName_append {a s : String} (ha : '/' ∉ a.toList) (hs : '/' ∉ s.toList)
    (hdot : ∃ c ∈ s.toList, c ≠ '.') : IsName (a ++ s) := by
  obtain ⟨c, hc, hcd⟩ := hdot
  have hmem : c ∈ (a ++ s).toList := by
    rw [String.toList_append]
    exact List.mem_append_right _ hc
  have hdots : ∀ t : String, (∀ x ∈ t.toList, x = '.') → a ++ s ≠ t := by
    rintro t ht rfl
    exact hcd (ht c hmem)
  refine ⟨hdots "" (by simp), hdots "." (by simp), hdots ".." (by simp), ?_⟩
  rw [String.toList_append, List.mem_append, not_or]
  exact ⟨ha, hs⟩

theorem isName_artifact (n : Naming) {b : String} (hb : '/' ∉ b.toList) (hs : '/' ∉ n.suffix.toList)
    (hdot : ∃ c ∈ n.suffix.toList, c ≠ '.') : IsName (n.artifact b) := by
  obtain ⟨r, hr⟩ := exists_eq_stem_append n b
  refine isName_append (fun h => hb ?_) hs hdot
  rw [hr, String.toList_append]
  exact List.mem_append_left _ h

/-- The root has no name, and nothing is dropped from its slash. -/
theorem artifact_root (n : Naming) : n.artifact "/" = "/" ++ n.suffix := by
  have hstem : n.stem "/" = "/" := by
    by_cases h : endsWith "/" n.extension
    · obtain ⟨s, hs⟩ := endsWith_iff.mp h
      by_cases he : s = ""
      · rw [he, String.empty_append] at hs
        rw [hs, stem_extension]
      · have hlen := congrArg String.length hs
        have hpos : s.length ≠ 0 := by simpa using he
        have hone : "/".length = 1 := rfl
        rw [String.length_append] at hlen
        have hext : n.extension = "" := by
          rw [← String.length_eq_zero_iff]
          omega
        simp [Naming.stem, hext]
    · exact stem_of_not_endsWith n h
  rw [Naming.artifact, hstem]

/-! ## Leaving a directory -/

theorem leaves_iff (q : String) : leaves q ↔ (names q).head? = some ".." := by
  have hdots : names ".." = [".."] := names_of_noSlash (by decide)
  unfold leaves
  rw [Bool.or_eq_true, decide_eq_true_eq, startsWith_iff]
  constructor
  · rintro (rfl | ⟨r, rfl⟩)
    · rw [hdots]
      rfl
    · have he : "../" ++ r = ".." ++ "/" ++ r := rfl
      rw [he, names_append_slash, hdots]
      rfl
  · intro h
    obtain ⟨rest, hrest⟩ : ∃ rest, names q = ".." :: rest := by
      cases hn : names q with
      | nil => exact absurd hn (names_ne_nil q)
      | cons a rest =>
        rw [hn, List.head?_cons, Option.some.injEq] at h
        exact ⟨rest, by rw [h]⟩
    have hq := intercalate_names q
    rw [hrest] at hq
    by_cases hr : rest = []
    · left
      rw [← hq, hr, String.intercalate_singleton]
    · right
      refine ⟨"/".intercalate rest, ?_⟩
      rw [← hq, String.intercalate_cons_of_ne_nil hr]
      rfl

theorem leaves_ofNames {ns : List String} (h : Cleaned false ns) :
    leaves (ofNames false ns) ↔ ns.head? = some ".." := by
  rw [leaves_iff]
  by_cases hne : ns = []
  · subst hne
    change (names ".").head? = _ ↔ _
    rw [names_of_noSlash (by decide)]
    decide
  · have hn : names (ofNames false ns) = ns := by
      unfold ofNames
      rw [if_neg (by simp), if_neg (by simpa using hne), names_intercalate hne,
        flatMap_names fun n hn => (h.noSlash n hn).2.2]
    rw [hn]

theorem not_leaves_of_isName {d : List String} (h : ∀ n ∈ d, IsName n) :
    ¬ leaves (ofNames false d) := by
  rw [leaves_ofNames (Cleaned.of_isName h)]
  intro hd
  have hmem : ".." ∈ d := List.mem_of_mem_head? hd
  exact (h ".." hmem).2.2.1 rfl

/-! ## The path of an artifact -/

theorem outputPath_eq (cwd : String) (n : Naming) (file input output : String) :
    outputPath cwd n file input output =
      if leaves (relative (absolute cwd input) (absolute cwd file)) then
        .error (.within (file ++ ": ") (.base .outsideInput) (" " ++ input))
      else
        .ok (join [output, dir (relative (absolute cwd input) (absolute cwd file)),
          n.artifact (base (absolute cwd file))]) :=
  rfl

theorem outputPath_eq_clean {cwd : String} {n : Naming} {file input output target : String}
    (h : outputPath cwd n file input output = .ok target) : ∃ p, target = clean p := by
  rw [outputPath_eq] at h
  split at h
  · cases h
  · rw [Except.ok.injEq] at h
    by_cases ho : output = ""
    · have hdir : dir (relative (absolute cwd input) (absolute cwd file)) ≠ "" := by
        unfold dir clean
        exact ofNames_ne_empty (cleaned_cleanNames _)
      rw [ho, join_empty_cons, join_cons_of_ne_empty hdir] at h
      exact ⟨_, h.symm⟩
    · rw [join_cons_of_ne_empty ho] at h
      exact ⟨_, h.symm⟩

section

variable {cwd : String} (n : Naming) {file input : String} (output : String)
  (hcwd : isAbsolute cwd = true)

include hcwd

theorem outputPath_of_outside (h : ¬ components cwd input <+: components cwd file) :
    outputPath cwd n file input output =
      .error (.within (file ++ ": ") (.base .outsideInput) (" " ++ input)) := by
  have hi := cleaned_components hcwd input
  have hf := cleaned_components hcwd file
  obtain ⟨rest, hc, hrel⟩ := relative_of_outside hi hf h
  rw [outputPath_eq, absolute_eq_ofNames hcwd file, absolute_eq_ofNames hcwd input, hrel,
    if_pos ((leaves_ofNames hc).mpr rfl)]

-- The way down to a file is what its components have more than those of the input directory.
theorem outputPath_of_inside {d : List String} (h : components cwd file = components cwd input ++ d) :
    outputPath cwd n file input output =
      .ok (join [output, ofNames false d.dropLast, n.artifact (base (absolute cwd file))]) := by
  have hf := cleaned_components hcwd file
  rw [h] at hf
  have hd : ∀ m ∈ d, IsName m := fun m hm => hf.isName m (List.mem_append_right _ hm)
  have hrel : relative (absolute cwd input) (absolute cwd file) = ofNames false d := by
    rw [absolute_eq_ofNames hcwd file, absolute_eq_ofNames hcwd input, h,
      relative_ofNames_append hf]
  rw [outputPath_eq, hrel, if_neg (not_leaves_of_isName hd), dir_ofNames (Cleaned.of_isName hd)]

variable (hslash : '/' ∉ n.suffix.toList) (hdot : ∃ c ∈ n.suffix.toList, c ≠ '.')

include hslash hdot

theorem outputPath_of_append {d : List String} {b : String}
    (h : components cwd file = components cwd input ++ d ++ [b]) :
    outputPath cwd n file input output = .ok (join (output :: (d ++ [n.artifact b]))) := by
  have hf := cleaned_components hcwd file
  have hname := components_isName hcwd file
  have hb : IsName b := hname b (by rw [h]; simp)
  have hd : ∀ m ∈ d, IsName m := fun m hm => hname m (by rw [h]; simp [hm])
  have ha : IsName (n.artifact b) := isName_artifact n hb.2.2.2 hslash hdot
  have hda : ∀ m ∈ d ++ [n.artifact b], IsName m := by
    intro m hm
    rcases List.mem_append.mp hm with hm | hm
    · exact hd m hm
    · rwa [List.mem_singleton.mp hm]
  have hbase : base (absolute cwd file) = b := by
    rw [h] at hf
    rw [absolute_eq_ofNames hcwd file, h, base_ofNames hf]
  rw [outputPath_of_inside n output hcwd (by rw [h, List.append_assoc] : _ = _ ++ (d ++ [b])),
    List.dropLast_concat, hbase, join_dir_name output hd ha, join_names output (by simp) hda]

-- The input directory itself has an artifact too, named for it, or by the suffix alone at the root.
theorem outputPath_of_eq (h : components cwd file = components cwd input) :
    ∃ m, IsName m ∧ outputPath cwd n file input output = .ok (join [output, m]) := by
  have hf := cleaned_components hcwd file
  have hpath := outputPath_of_inside n output hcwd (by rw [h, List.append_nil] :
    components cwd file = components cwd input ++ [])
  have hjoin : ∀ {m : String}, IsName m →
      join [output, m] = ofNames (isAbsolute output) (cleanNames output ++ [m]) := fun hm =>
    join_names output (by simp) (by simpa using hm)
  rcases List.eq_nil_or_concat' (components cwd file) with hnil | ⟨init, b, hinit⟩
  · have hbase : base (absolute cwd file) = "/" := by
      rw [absolute_eq_ofNames hcwd file, hnil, base_ofNames_root]
    have hm : IsName n.suffix := by
      simpa using isName_append (a := "") (by decide) hslash hdot
    refine ⟨n.suffix, hm, ?_⟩
    -- The slash before the suffix only makes an empty name.
    have hroot : join [output, ".", "/" ++ n.suffix] =
        ofNames (isAbsolute output) (cleanNames output ++ [n.suffix]) := by
      apply join_cons_eq_ofNames output (by decide) (by decide)
      intro r before
      have hnames := names_append_slash "" n.suffix
      rw [names_empty, String.empty_append, names_of_noSlash hslash] at hnames
      rw [List.flatMap_cons, List.flatMap_singleton, hnames, names_of_noSlash (by decide)]
      simp only [List.cons_append, List.nil_append, List.foldl_cons, List.foldl_nil, cleanStep_dot,
        cleanStep_empty, cleanStep_isName _ _ hm, List.reverse_singleton]
    rw [hpath, hbase, artifact_root, hjoin hm, ← hroot]
    rfl
  · have hb : IsName b := components_isName hcwd file b (by rw [hinit]; simp)
    have hbase : base (absolute cwd file) = b := by
      rw [hinit] at hf
      rw [absolute_eq_ofNames hcwd file, hinit, base_ofNames hf]
    have hm := isName_artifact n hb.2.2.2 hslash hdot
    refine ⟨n.artifact b, hm, ?_⟩
    rw [hpath, hbase, hjoin hm]
    exact congrArg Except.ok (join_dir_name output (d := []) (by simp) hm)

end

/-- A path below a directory as far as the texts tell: it goes on with proper names from where the
directory ends. -/
def Below (dir p : String) : Prop :=
  ∃ ms, ms ≠ [] ∧ (∀ m ∈ ms, IsName m) ∧ p = ofNames (isAbsolute dir) (cleanNames dir ++ ms)

theorem below_join (dir : String) {ms : List String} (hne : ms ≠ []) (hm : ∀ m ∈ ms, IsName m) :
    Below dir (join (dir :: ms)) :=
  ⟨ms, hne, hm, join_names dir hne hm⟩

-- Seen from any directory, what is below another place has the components of that place before its own.
theorem Below.components {cwd dir p : String} (h : Below dir p) (hcwd : isAbsolute cwd = true) :
    ∃ ms, ms ≠ [] ∧ Path.components cwd p = Path.components cwd dir ++ ms := by
  obtain ⟨ms, hne, hm, rfl⟩ := h
  exact ⟨ms, hne, components_ofNames_append hcwd hm⟩

/-- The output tree follows the input tree.  A file has an artifact exactly when the components of the
input directory are the first of its own, and then the artifact stands below the output directory, under
the names that are left and with its own name changed.  Only the absolute forms of the two paths count. -/
theorem outputPath_mirrors (cwd : String) (n : Naming) (file input output : String)
    (hcwd : isAbsolute cwd = true) (hslash : '/' ∉ n.suffix.toList)
    (hdot : ∃ c ∈ n.suffix.toList, c ≠ '.') :
    ((∃ f, outputPath cwd n file input output = .error f ∧ f.cause = .outsideInput) ↔
      ¬ components cwd input <+: components cwd file) ∧
    (components cwd input <+: components cwd file →
      ∃ p, outputPath cwd n file input output = .ok p) ∧
    (∀ d b, components cwd file = components cwd input ++ d ++ [b] →
      outputPath cwd n file input output = .ok (join (output :: (d ++ [n.stem b ++ n.suffix])))) ∧
    ((∀ s, s ≠ "" → n.stem (s ++ n.extension) = s) ∧ n.stem n.extension = n.extension ∧
      ∀ b, ¬ endsWith b n.extension → n.stem b = b) ∧
    (∀ p, outputPath cwd n file input output = .ok p →
      Below output p ∧ ∃ ms, ms ≠ [] ∧ components cwd p = components cwd output ++ ms) ∧
    (∀ cwd' file' input', absolute cwd' file' = absolute cwd file →
      absolute cwd' input' = absolute cwd input →
      (outputPath cwd' n file' input' output).toOption =
        (outputPath cwd n file input output).toOption) ∧
    ∀ cwd', (outputPath cwd' n (absolute cwd file) (absolute cwd input) output).toOption =
      (outputPath cwd n file input output).toOption := by
  -- Every path that is given is joined from the output directory and proper names.
  have hok : components cwd input <+: components cwd file →
      ∃ ms, ms ≠ [] ∧ (∀ m ∈ ms, IsName m) ∧
        outputPath cwd n file input output = .ok (join (output :: ms)) := by
    rintro ⟨d, hd⟩
    rcases List.eq_nil_or_concat' d with rfl | ⟨init, b, rfl⟩
    · rw [List.append_nil] at hd
      obtain ⟨m, hm, hp⟩ := outputPath_of_eq n output hcwd hslash hdot hd.symm
      exact ⟨[m], by simp, by simpa using hm, hp⟩
    · rw [← List.append_assoc] at hd
      have hname := components_isName hcwd file
      rw [← hd] at hname
      refine ⟨init ++ [n.artifact b], by simp, fun m hm => ?_,
        outputPath_of_append n output hcwd hslash hdot hd.symm⟩
      rcases List.mem_append.mp hm with hm | hm
      · exact hname m (by simp [hm])
      · rw [List.mem_singleton.mp hm]
        exact isName_artifact n (hname b (by simp)).2.2.2 hslash hdot
  have hsame : ∀ cwd' file' input', absolute cwd' file' = absolute cwd file →
      absolute cwd' input' = absolute cwd input →
      (outputPath cwd' n file' input' output).toOption =
        (outputPath cwd n file input output).toOption := by
    intro cwd' file' input' hf hi
    rw [outputPath_eq, outputPath_eq, hf, hi]
    by_cases hl : leaves (relative (absolute cwd input) (absolute cwd file))
    · rw [if_pos hl, if_pos hl]
      rfl
    · rw [if_neg hl, if_neg hl]
  refine ⟨⟨?_, ?_⟩, ?_, ?_, ⟨?_, stem_extension n, ?_⟩, ?_, hsame, ?_⟩
  · rintro ⟨f, hf, -⟩ hpre
    obtain ⟨ms, -, -, hp⟩ := hok hpre
    rw [hp] at hf
    cases hf
  · intro hpre
    exact ⟨_, outputPath_of_outside n output hcwd hpre, rfl⟩
  · intro hpre
    obtain ⟨ms, -, -, hp⟩ := hok hpre
    exact ⟨_, hp⟩
  · intro d b h
    exact outputPath_of_append n output hcwd hslash hdot h
  · intro s hs
    exact stem_append n hs
  · intro b hb
    exact stem_of_not_endsWith n hb
  · intro p hp
    by_cases hpre : components cwd input <+: components cwd file
    · obtain ⟨ms, hne, hm, hp'⟩ := hok hpre
      rw [hp', Except.ok.injEq] at hp
      have hbelow : Below output p := hp ▸ below_join output hne hm
      exact ⟨hbelow, hbelow.components hcwd⟩
    · rw [outputPath_of_outside n output hcwd hpre] at hp
      cases hp
  · intro cwd'
    exact hsame cwd' _ _ (absolute_absolute hcwd cwd' file) (absolute_absolute hcwd cwd' input)

theorem outputPath_mirrors_dotted :
    isAbsolute "/w" = true ∧ '/' ∉ Naming.default.suffix.toList ∧
      (∃ c ∈ Naming.default.suffix.toList, c ≠ '.') ∧
      components "/w" "in/..d//x/../X.sol" = components "/w" "./in/" ++ ["..d"] ++ ["X.sol"] ∧
      outputPath "/w" .default "in/..d//x/../X.sol" "./in/" "../out" =
        .ok "../out/..d/X_ast.json" ∧
      ∃ f, outputPath "/w" .default "in..d/X.sol" "in" "out" = .error f ∧ f.cause = .outsideInput := by
  have hdot : ∃ c ∈ Naming.default.suffix.toList, c ≠ '.' := ⟨'_', by decide, by decide⟩
  have hinside := outputPath_mirrors "/w" .default "in/..d//x/../X.sol" "./in/" "../out"
    (by decide) (by decide) hdot
  have houtside := outputPath_mirrors "/w" .default "in..d/X.sol" "in" "out"
    (by decide) (by decide) hdot
  have hcomponents : components "/w" "in/..d//x/../X.sol" =
      components "/w" "./in/" ++ ["..d"] ++ ["X.sol"] := by decide
  refine ⟨by decide, by decide, hdot, hcomponents, ?_, houtside.1.mpr (by decide)⟩
  rw [hinside.2.2.1 ["..d"] "X.sol" hcomponents]
  decide

end SolidityAst.Export
