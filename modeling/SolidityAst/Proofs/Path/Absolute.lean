import SolidityAst.Proofs.Path.Parts

/-!
Absolute paths, paths from one place to another, and joined paths.

Seen from an absolute directory every path has a list of proper names, its components.  The path from
one place to another stays inside exactly when the components of the first are the first components of
the second.
-/
namespace SolidityAst.Path

open Text

/-! ## Joining -/

theorem names_ne_nil (p : String) : names p ≠ [] := by
  simp [names, fields, splitOn_ne_nil]

theorem join_cons_of_ne_empty {p : String} (h : p ≠ "") (ps : List String) :
    join (p :: ps) = clean ("/".intercalate (p :: ps)) := by
  unfold join
  rw [List.dropWhile_cons_of_neg (by simpa using h)]

@[simp] theorem join_empty_cons (ps : List String) : join ("" :: ps) = join ps := by
  unfold join
  rw [List.dropWhile_cons_of_pos (by simp)]

theorem isAbsolute_intercalate {p : String} (h : p ≠ "") (ps : List String) :
    isAbsolute ("/".intercalate (p :: ps)) = isAbsolute p := by
  cases ps with
  | nil => simp
  | cons q qs =>
    rw [String.intercalate_cons_cons, String.append_assoc, isAbsolute_append _ h]

/-- The names of joined paths are cleaned one path after another. -/
theorem cleanNames_intercalate {p : String} (h : p ≠ "") (ps : List String) :
    cleanNames ("/".intercalate (p :: ps)) =
      ((ps.flatMap names).foldl (cleanStep (isAbsolute p)) (cleanNames p).reverse).reverse := by
  have hn : names ("/".intercalate (p :: ps)) = names p ++ ps.flatMap names := by
    rw [names_intercalate (by simp), List.flatMap_cons]
  rw [cleanNames, isAbsolute_intercalate h, hn, List.foldl_append, cleanNames,
    List.reverse_reverse]

/-- Joining a path with others that clean to proper names appends these names to its own. -/
theorem join_cons_eq_ofNames (p : String) {q : String} {qs ms : List String} (hq : q ≠ "")
    (hrel : isAbsolute q = false)
    (hfold : ∀ (r : Bool) (before : List String),
      ((q :: qs).flatMap names).foldl (cleanStep r) before = ms.reverse ++ before) :
    join (p :: q :: qs) = ofNames (isAbsolute p) (cleanNames p ++ ms) := by
  by_cases hp : p = ""
  · subst hp
    have hn : cleanNames ("/".intercalate (q :: qs)) = ms := by
      rw [cleanNames, names_intercalate (by simp), hfold, List.append_nil, List.reverse_reverse]
    rw [join_empty_cons, join_cons_of_ne_empty hq, clean, isAbsolute_intercalate hq, hrel, hn]
    rfl
  · rw [join_cons_of_ne_empty hp, clean, isAbsolute_intercalate hp, cleanNames_intercalate hp,
      hfold, List.reverse_append, List.reverse_reverse, List.reverse_reverse]

theorem join_names (p : String) {ms : List String} (hne : ms ≠ []) (hm : ∀ n ∈ ms, IsName n) :
    join (p :: ms) = ofNames (isAbsolute p) (cleanNames p ++ ms) := by
  obtain ⟨m, ms, rfl⟩ := List.exists_cons_of_ne_nil hne
  have hm0 := hm m List.mem_cons_self
  apply join_cons_eq_ofNames p hm0.1 (isAbsolute_eq_false_of_noSlash hm0.2.2.2)
  intro r before
  rw [flatMap_names fun n hn => (hm n hn).2.2.2, foldl_cleanStep_isName _ _ hm]

theorem join_dir_name (p : String) {d : List String} {b : String} (hd : ∀ n ∈ d, IsName n)
    (hb : IsName b) :
    join [p, ofNames false d, b] = ofNames (isAbsolute p) (cleanNames p ++ (d ++ [b])) := by
  have hcd : Cleaned false d := Cleaned.of_isName hd
  apply join_cons_eq_ofNames p (ofNames_ne_empty hcd) (isAbsolute_ofNames hcd)
  intro r before
  rw [List.flatMap_cons, List.flatMap_singleton, names_of_noSlash hb.2.2.2, List.foldl_append,
    foldl_names_ofNames _ _ hcd, foldl_cleanStep_isName _ _ hd, List.foldl_cons, List.foldl_nil,
    cleanStep_isName _ _ hb, List.reverse_append]
  rfl

/-! ## Components -/

/-- The names of a path seen from the directory `cwd`. -/
def components (cwd p : String) : List String := cleanNames (absolute cwd p)

theorem absolute_of_relative {cwd p : String} (hc : isAbsolute cwd = true)
    (hp : isAbsolute p = false) : absolute cwd p = clean ("/".intercalate [cwd, p]) := by
  unfold absolute
  rw [if_neg (by simp [hp]), join_cons_of_ne_empty (ne_empty_of_isAbsolute hc)]

theorem isAbsolute_absolute {cwd : String} (hc : isAbsolute cwd = true) (p : String) :
    isAbsolute (absolute cwd p) = true := by
  by_cases hp : isAbsolute p = true
  · rw [absolute, if_pos hp, isAbsolute_clean, hp]
  · rw [absolute_of_relative hc (by simpa using hp), isAbsolute_clean,
      isAbsolute_intercalate (ne_empty_of_isAbsolute hc), hc]

theorem cleaned_components {cwd : String} (hc : isAbsolute cwd = true) (p : String) :
    Cleaned true (components cwd p) := by
  have h := cleaned_cleanNames (absolute cwd p)
  rwa [isAbsolute_absolute hc] at h

theorem components_isName {cwd : String} (hc : isAbsolute cwd = true) (p : String) :
    ∀ n ∈ components cwd p, IsName n :=
  (cleaned_components hc p).isName

/-- An absolute path is that of its components. -/
theorem absolute_eq_ofNames {cwd : String} (hc : isAbsolute cwd = true) (p : String) :
    absolute cwd p = ofNames true (components cwd p) := by
  have hclean : ∀ q, isAbsolute q = true → clean q = ofNames true (cleanNames (clean q)) := by
    intro q hq
    rw [cleanNames_clean, clean, hq]
  unfold components
  by_cases hp : isAbsolute p = true
  · rw [absolute, if_pos hp]
    exact hclean p hp
  · rw [absolute_of_relative hc (by simpa using hp)]
    exact hclean _ (by rw [isAbsolute_intercalate (ne_empty_of_isAbsolute hc), hc])

theorem components_of_relative {cwd p : String} (hc : isAbsolute cwd = true)
    (hp : isAbsolute p = false) :
    components cwd p = ((names p).foldl (cleanStep true) (cleanNames cwd).reverse).reverse := by
  rw [components, absolute_of_relative hc hp, cleanNames_clean,
    cleanNames_intercalate (ne_empty_of_isAbsolute hc), hc, List.flatMap_singleton]

theorem components_of_absolute {cwd p : String} (hp : isAbsolute p = true) :
    components cwd p = cleanNames p := by
  simp [components, absolute, hp]

/-- The absolute form of a path is seen the same from everywhere. -/
theorem absolute_absolute {cwd : String} (hc : isAbsolute cwd = true) (cwd' p : String) :
    absolute cwd' (absolute cwd p) = absolute cwd p := by
  rw [absolute, if_pos (isAbsolute_absolute hc p), absolute_eq_ofNames hc,
    clean_ofNames (cleaned_components hc p)]

/-- The names below a path are components below those of the path. -/
theorem components_ofNames_append {cwd p : String} (hc : isAbsolute cwd = true) {ms : List String}
    (hm : ∀ n ∈ ms, IsName n) :
    components cwd (ofNames (isAbsolute p) (cleanNames p ++ ms)) = components cwd p ++ ms := by
  have hcl := (cleaned_cleanNames p).append hm
  by_cases hp : isAbsolute p = true
  · rw [hp] at hcl ⊢
    rw [components_of_absolute (isAbsolute_ofNames hcl), cleanNames_ofNames hcl,
      components_of_absolute hp]
  · have hp' : isAbsolute p = false := by simpa using hp
    rw [hp'] at hcl ⊢
    rw [components_of_relative hc (isAbsolute_ofNames hcl), components_of_relative hc hp',
      foldl_names_ofNames _ _ hcl, List.foldl_append, foldl_cleanStep_isName _ _ hm,
      List.reverse_append, List.reverse_reverse, foldl_cleanStep_names _ _ hp']

/-! ## From one place to another -/

@[simp] theorem dropShared_append (as d : List String) : dropShared as (as ++ d) = ([], d) := by
  induction as with
  | nil => cases d <;> rfl
  | cons a as ih => rw [List.cons_append, dropShared, if_pos rfl, ih]

theorem exists_shared (as bs : List String) :
    ∃ shared, as = shared ++ (dropShared as bs).1 ∧ bs = shared ++ (dropShared as bs).2 := by
  induction as generalizing bs with
  | nil => exact ⟨[], by simp [dropShared]⟩
  | cons a as ih =>
    cases bs with
    | nil => exact ⟨[], by simp [dropShared]⟩
    | cons b bs =>
      rw [dropShared]
      by_cases hab : a = b
      · obtain ⟨shared, ha, hb⟩ := ih bs
        rw [if_pos hab, hab]
        refine ⟨b :: shared, ?_, ?_⟩
        · rw [List.cons_append, ← ha]
        · rw [List.cons_append, ← hb]
      · rw [if_neg hab]
        exact ⟨[], rfl, rfl⟩

theorem relative_of_cleanNames {p q : String} {d : List String} (h : cleanNames q = cleanNames p ++ d) :
    relative p q = ofNames false d := by
  unfold relative
  rw [h, dropShared_append]
  rfl

theorem relative_ofNames_append {as d : List String} (h : Cleaned true (as ++ d)) :
    relative (ofNames true as) (ofNames true (as ++ d)) = ofNames false d := by
  apply relative_of_cleanNames
  rw [cleanNames_ofNames h.of_append, cleanNames_ofNames h]

/-- The way to a place that is not below the start begins with a step up. -/
theorem relative_of_outside {as bs : List String} (ha : Cleaned true as) (hb : Cleaned true bs)
    (h : ¬ as <+: bs) : ∃ rest, Cleaned false (".." :: rest) ∧
      relative (ofNames true as) (ofNames true bs) = ofNames false (".." :: rest) := by
  obtain ⟨shared, hsa, hsb⟩ := exists_shared as bs
  unfold relative
  rw [cleanNames_ofNames ha, cleanNames_ofNames hb]
  generalize dropShared as bs = ways at hsa hsb
  obtain ⟨up, down⟩ := ways
  cases up with
  | nil =>
    rw [List.append_nil] at hsa
    exact absurd ⟨down, by rw [hsa]; exact hsb.symm⟩ h
  | cons u up =>
    refine ⟨up.map (fun _ => "..") ++ down, ?_, rfl⟩
    refine ⟨up.length + 1, down, ?_, fun n hn => hb.isName n ?_, by simp⟩
    · rw [List.replicate_succ, List.map_const']
      rfl
    · rw [hsb]
      exact List.mem_append_right _ hn

end SolidityAst.Path
