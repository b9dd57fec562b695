import Mathlib.Algebra.Order.BigOperators.Group.List
import Mathlib.Algebra.Order.Group.Nat
import SolidityAst.Proofs.Export.AllOrNothing
import SolidityAst.Proofs.FileTree.Unlinked

/-!
What the export of a file depends on.

Without links, an export looks at the source, at the target and at what stands above the target.  As long
as these are as they were, up to directories that others have made, the export ends in the same way: with
the same change of the tree and, but for the digits in the names of temporary files, with the same texts.
-/
namespace SolidityAst.Export

open FileTree SolidityAst.Path Text

/-! ## Masks -/

/-- Of how many characters of `.tmp-0` a text ends with, when it goes on with `c`; further digits do not
count. -/
def markStep (seen : Nat) (c : Char) : Nat :=
  if c = '.' then 1
  else if seen = 1 && c = 't' then 2
  else if seen = 2 && c = 'm' then 3
  else if seen = 3 && c = 'p' then 4
  else if seen = 4 && c = '-' then 5
  else 0

/-- Masks the digits after each `.tmp-`, when so much of it was seen. -/
def maskFrom : (seen : Nat) → List Char → List Char
  | _, [] => []
  | seen, c :: cs =>
    if 5 ≤ seen && isDigit c then (if seen = 5 then ['*'] else []) ++ maskFrom 6 cs
    else c :: maskFrom (markStep seen c) cs

/-- A text with a star for the digits of temporary files. -/
def mask (text : String) : String := String.ofList (maskFrom 0 text.toList)

/-- The digits that a temporary file is marked with. -/
def IsTag (tag : String) : Prop := tag ≠ "" ∧ ∀ c ∈ tag.toList, isDigit c = true

theorem isTag_of_all {tag : String} (h : tag ≠ "") (hall : tag.toList.all isDigit = true) : IsTag tag :=
  ⟨h, List.all_eq_true.mp hall⟩

-- A point starts a new mark, whatever was seen before it.
theorem maskFrom_point (seen : Nat) (cs ds : List Char) :
    maskFrom seen (cs ++ '.' :: ds) = maskFrom seen cs ++ '.' :: maskFrom 1 ds := by
  induction cs generalizing seen with
  | nil =>
    have hpoint : isDigit '.' = false := by decide
    have hfirst : maskFrom seen ('.' :: ds) = '.' :: maskFrom 1 ds := by
      rw [maskFrom, hpoint, Bool.and_false, if_neg (by simp)]
      rfl
    exact hfirst
  | cons c cs ih =>
    rw [List.cons_append, maskFrom, maskFrom]
    split
    · rw [ih, List.append_assoc]
    · rw [ih, List.cons_append]

theorem maskFrom_digits {ds : List Char} (h : ∀ c ∈ ds, isDigit c = true) (cs : List Char) :
    maskFrom 6 (ds ++ cs) = maskFrom 6 cs := by
  induction ds with
  | nil => rfl
  | cons d ds ih =>
    have hd := h d List.mem_cons_self
    rw [List.cons_append, maskFrom, hd, if_pos (by simp), if_neg (by simp), List.nil_append]
    exact ih fun c hc => h c (List.mem_cons_of_mem _ hc)

/-- The tag of a temporary file does not show. -/
theorem mask_tag {tag : String} (h : IsTag tag) (before after : String) :
    mask (before ++ ".tmp-" ++ tag ++ after) =
      String.ofList (maskFrom 0 before.toList ++ ".tmp-*".toList ++ maskFrom 6 after.toList) := by
  obtain ⟨hne, hdigits⟩ := h
  obtain ⟨d, ds, htag⟩ := List.exists_cons_of_ne_nil (show tag.toList ≠ [] by simpa using hne)
  rw [htag] at hdigits
  have hd := hdigits d List.mem_cons_self
  have htext : (before ++ ".tmp-" ++ tag ++ after).toList =
      before.toList ++ '.' :: ('t' :: 'm' :: 'p' :: '-' :: d :: (ds ++ after.toList)) := by
    rw [String.toList_append, String.toList_append, String.toList_append, htag]
    simp
  have hmark : maskFrom 1 ('t' :: 'm' :: 'p' :: '-' :: d :: (ds ++ after.toList)) =
      't' :: 'm' :: 'p' :: '-' :: '*' :: maskFrom 6 after.toList := by
    rw [← maskFrom_digits fun c hc => hdigits c (List.mem_cons_of_mem _ hc)]
    simp [maskFrom, markStep, hd]
  rw [mask, htext, maskFrom_point, hmark]
  simp

theorem mask_occupied (path : String) {tag tag' : String} (h : IsTag tag) (h' : IsTag tag') :
    mask (occupied tag path).message = mask (occupied tag' path).message := by
  have hmessage : ∀ tag, (occupied tag path).message =
      ("failed to finalize output file" ++ ": " ++ "rename" ++ " " ++
        (if (splitLast path).1 = "" then "./" else (splitLast path).1) ++ (splitLast path).2) ++
      ".tmp-" ++ tag ++ (" " ++ path ++ ": " ++ "file exists") := by
    intro tag
    simp only [occupied, Failure.during, Failure.message, Cause.message, FileError.message, Errno.message,
      freshPath, String.append_assoc, String.append_empty]
  rw [hmessage, hmessage, mask_tag h, mask_tag h']

/-! ## Placing a file -/

/-- The second tree is as the first to an export with a source and perhaps a target: at most there are
more directories above the target. -/
structure Undisturbed (t₀ t : FileTree) (cwd source : Place) (target : Option Place) : Prop where
  wellFormed : t.WellFormed
  noLinks : NoLinks t
  directory : t.get? cwd = some .directory
  sourceKept : t.get? source = t₀.get? source
  targetKept : ∀ p ∈ target, t.get? p = t₀.get? p
  aboveKept : ∀ p ∈ target, ∀ q, q <+: p →
    t.get? q = t₀.get? q ∨ t₀.get? q = none ∧ t.get? q = some .directory

/-- A temporary file with this tag can be made beside the target. -/
def Unused (t : FileTree) (cwd : Place) (tag target : String) : Prop :=
  ∀ found, t.look cwd (freshPath tag target) false ≠ .ok found

theorem unused_of_look {t : FileTree} {cwd : Place} {tag target : String} (errno : Errno)
    (hlook : t.look cwd (freshPath tag target) false = .error errno) : Unused t cwd tag target := by
  intro found
  rw [hlook]
  simp

theorem IsTag.noSlash {tag : String} (h : IsTag tag) : '/' ∉ tag.toList := fun hmem =>
  absurd (h.2 _ hmem) (by decide)

section

variable {t₀ t : FileTree} {cwd source : Place} {tag : String} {rooted : Bool} {ns : List String}

theorem Undisturbed.file {p q : Place} (h : Undisturbed t₀ t cwd source (some p)) (hq : q <+: p)
    {content : Bytes} {executable : Bool} :
    t.get? q = some (.file content executable) ↔ t₀.get? q = some (.file content executable) := by
  rcases h.aboveKept p rfl q hq with heq | ⟨hnone, hdir⟩
  · rw [heq]
  · rw [hnone, hdir]
    simp

-- The directories above the target are made, and what happens then is told by the target.
theorem placeFile_unblocked (hu : Undisturbed t₀ t cwd source (some (placeOf cwd (ofNames rooted ns))))
    (h : Cleaned rooted ns) (htag : IsTag tag) (hunused : Unused t cwd tag (ofNames rooted ns))
    (hclear : ∀ q content executable, q <+: placeOf cwd (ofNames rooted ns.dropLast) →
      t.get? q ≠ some (.file content executable)) (content : Bytes) :
    (t₀.get? (placeOf cwd (ofNames rooted ns)) = some .directory ∧
      placeFile t cwd tag (ofNames rooted ns) content =
        (.error (occupied tag (ofNames rooted ns)), t)) ∨
    (t₀.get? (placeOf cwd (ofNames rooted ns)) ≠ some .directory ∧
      ∃ t', placeFile t cwd tag (ofNames rooted ns) content = (.ok (), t') ∧
        Placed t t' (placeOf cwd (ofNames rooted ns)) content) := by
  have hnames : ∀ n ∈ cwd, IsName n := hu.wellFormed.isName_of_get? (by rw [hu.directory]; simp)
  have hinit := h.dropLast
  rw [← hu.targetKept _ rfl]
  unfold placeFile
  rw [dir_ofNames h]
  rcases makeDirectories_ensures hu.wellFormed hu.directory hinit with
    ⟨e, herr⟩ | ⟨t', place, hok, hopened, hdir⟩
  · -- Only a file above the target could have stopped this.
    obtain ⟨q, content', executable, hq, hfile⟩ := ensureFirst_error hu.wellFormed hu.noLinks hu.directory
      hinit (length_le_length_ofNames hinit) herr
    exact absurd hfile (hclear q content' executable hq)
  rw [hok]
  dsimp only
  rcases replaceFile_opened hu.wellFormed hu.directory htag.noSlash h hopened hdir content with
    ⟨_, found, hfound, -⟩ | ⟨q, hlook, hf⟩ | ⟨name, t'', hname, hns, hnot, hplace, hplaced⟩
  · -- The name of the temporary file was said to be free.
    exact absurd hfound (hunused found)
  · -- The target is a directory, and it is where the text says.
    have hq := look_eq_placeOf hu.noLinks hnames hlook
    refine .inl ⟨?_, hf⟩
    rw [← hq]
    exact get?_of_locate hu.wellFormed hu.directory (look_eq_ok_iff.mp hlook)
  · -- The file went into the directory that was found, which is where the text says, too.
    have hplaceEq := locate_linkFree hnames hinit (Opened.linkFree hopened (hu.noLinks.linkFree _)) hdir
    have htarget : placeOf cwd (ofNames rooted ns) = place ++ [name] := by
      rw [hns, placeOf_concat hnames hinit hname, hplaceEq]
    rw [htarget]
    refine .inr ⟨fun hdirectory => hnot (hopened.toExtends _ _ hdirectory), t'', hplace, hplaced⟩

-- A path that does not only lead up has its directory above it.
theorem placeOf_dropLast_above (hnames : ∀ n ∈ cwd, IsName n) (h : Cleaned rooted ns)
    (hups : ¬ ∀ n ∈ ns, n = "..") :
    placeOf cwd (ofNames rooted ns.dropLast) <+: placeOf cwd (ofNames rooted ns) := by
  rcases List.eq_nil_or_concat' ns with rfl | ⟨init, name, rfl⟩
  · simp at hups
  · rw [List.dropLast_concat, placeOf_concat hnames h.of_append (h.isName_or_ups.resolve_right hups)]
    exact List.prefix_append _ _

theorem unblocked_of_undisturbed {p : Place} (hu : Undisturbed t₀ t cwd source (some p))
    (h : Cleaned rooted ns) (hp : p = placeOf cwd (ofNames rooted ns))
    (hclear : ∀ q content executable, q <+: p → q <+: placeOf cwd (ofNames rooted ns.dropLast) →
      t₀.get? q ≠ some (.file content executable)) :
    ∀ q content executable, q <+: placeOf cwd (ofNames rooted ns.dropLast) →
      t.get? q ≠ some (.file content executable) := by
  intro q content executable hq hfile
  have hnames : ∀ n ∈ cwd, IsName n := hu.wellFormed.isName_of_get? (by rw [hu.directory]; simp)
  by_cases hups : ∀ n ∈ ns, n = ".."
  · -- Above such a path there are only directories, but they are not above its place.
    rw [get?_placeOf_ups hu.wellFormed hu.directory h.dropLast
      (fun n hn => hups n (List.dropLast_subset _ hn)) hq] at hfile
    cases hfile
  · have hq' : q <+: p := by
      rw [hp]
      exact hq.trans (placeOf_dropLast_above hnames h hups)
    exact hclear q content executable hq' hq ((hu.file hq').mp hfile)

/-- The failure of a file with another file, at `path`, above its target. -/
def blocked (path : String) : Failure :=
  .during "failed to create output directory" (.base (.file ⟨"mkdir", path, .notDirectory⟩))

/-- How placing a file ends, and with which text, is told by the first tree: with a failure, or with the
file in its place. -/
theorem placeFile_fate (ht₀ : t₀.WellFormed) (hcwd₀ : t₀.get? cwd = some .directory)
    (source : Place) (p : String) (content : Bytes) :
    (∃ text, ∀ {t tag}, Undisturbed t₀ t cwd source (some (placeOf cwd (clean p))) → IsTag tag →
      Unused t cwd tag (clean p) →
      ∃ f, placeFile t cwd tag (clean p) content = (.error f, t) ∧ mask f.message = text ∧
        Ledger.Status.ofFailure f = .failed) ∨
    (t₀.get? (placeOf cwd (clean p)) ≠ some .directory ∧
      ∀ {t tag}, Undisturbed t₀ t cwd source (some (placeOf cwd (clean p))) → IsTag tag →
        Unused t cwd tag (clean p) →
        ∃ t', placeFile t cwd tag (clean p) content = (.ok (), t') ∧
          Placed t t' (placeOf cwd (clean p)) content) := by
  have hnames : ∀ n ∈ cwd, IsName n := ht₀.isName_of_get? (by rw [hcwd₀]; simp)
  have h := cleaned_cleanNames p
  unfold clean
  generalize isAbsolute p = rooted at h ⊢
  generalize cleanNames p = ns at h ⊢
  -- Three things decide: whether a file is above the target, whether a directory is there, and the rest.
  by_cases hblocked : ∃ q content' executable, q <+: placeOf cwd (ofNames rooted ns) ∧
      q <+: placeOf cwd (ofNames rooted ns.dropLast) ∧ t₀.get? q = some (.file content' executable)
  · obtain ⟨q, content', executable, hq, hqdir, hfile⟩ := hblocked
    obtain ⟨path, hpath⟩ := ensureFirst_blocked hnames h.dropLast hqdir
    refine .inl ⟨mask (blocked path).message, fun {t tag} hu _ _ => ⟨blocked path, ?_, rfl, rfl⟩⟩
    have herr := hpath hu.wellFormed hu.noLinks hu.directory ((hu.file hq).mpr hfile)
      (length_le_length_ofNames h.dropLast)
    unfold placeFile makeDirectories
    rw [dir_ofNames h, herr]
    rfl
  have hclear : ∀ q content executable, q <+: placeOf cwd (ofNames rooted ns) →
      q <+: placeOf cwd (ofNames rooted ns.dropLast) → t₀.get? q ≠ some (.file content executable) :=
    fun q content' executable hq hqdir hfile => hblocked ⟨q, content', executable, hq, hqdir, hfile⟩
  by_cases hdir : t₀.get? (placeOf cwd (ofNames rooted ns)) = some .directory
  · refine .inl ⟨mask (occupied "0" (ofNames rooted ns)).message, fun {t tag} hu htag hunused => ?_⟩
    rcases placeFile_unblocked hu h htag hunused (unblocked_of_undisturbed hu h rfl hclear) content with
      ⟨-, herr⟩ | ⟨hnot, -⟩
    · exact ⟨_, herr, mask_occupied _ htag (isTag_of_all (by decide) (by decide)), rfl⟩
    · exact absurd hdir hnot
  · refine .inr ⟨hdir, fun {t tag} hu htag hunused => ?_⟩
    rcases placeFile_unblocked hu h htag hunused (unblocked_of_undisturbed hu h rfl hclear) content with
      ⟨hdir', -⟩ | ⟨-, hplaced⟩
    · exact absurd hdir' hdir
    · exact hplaced

-- No name in the tree is as long as the tag.
theorem exists_unused (ht : t.WellFormed) (hlinks : NoLinks t) (hcwd : t.get? cwd = some .directory)
    (h : Cleaned rooted ns) : ∃ tag, IsTag tag ∧ Unused t cwd tag (ofNames rooted ns) := by
  obtain ⟨bound, hbound⟩ : ∃ bound, ∀ place node, t.get? place = some node →
      ∀ n ∈ place, n.length ≤ bound := by
    refine ⟨((t.entries.flatMap Prod.fst).map String.length).sum, fun place node hget n hn => ?_⟩
    obtain ⟨e, he, rfl⟩ := exists_entry_of_get? (List.ne_nil_of_mem hn) (by rw [hget]; simp)
    have hmem : n ∈ t.entries.flatMap Prod.fst := List.mem_flatMap.mpr ⟨e, he, hn⟩
    exact List.single_le_sum (fun _ _ => Nat.zero_le _) _ (List.mem_map_of_mem hmem)
  have htag : IsTag (String.ofList (List.replicate (bound + 1) '1')) := by
    refine ⟨by simp [List.replicate_succ], fun c hc => ?_⟩
    rw [String.toList_ofList] at hc
    rw [List.eq_of_mem_replicate hc]
    decide
  refine ⟨_, htag, fun ⟨place, node⟩ hlook => ?_⟩
  have hlong : bound < (String.ofList (List.replicate (bound + 1) '1')).length := by simp
  generalize String.ofList (List.replicate (bound + 1) '1') = tag at htag hlook hlong
  obtain ⟨l, hsplit, hslash⟩ := splitLast_cleaned h
  have hname : IsName (l ++ ".tmp-" ++ tag) := isName_fresh hslash htag.noSlash
  -- What was found would be in the tree, under a name that ends with the tag.
  have hleads := leads_of_follow ((locate_beside t cwd h.dropLast hname.1 hname.2.2.2 false).symm.trans
    (show t.locate cwd _ false = _ by rw [← look_eq_ok_iff.mp hlook, freshPath, hsplit]))
  have hget := hleads.get?_eq ht (get?_origin hcwd rooted)
  have hnames : ∀ n ∈ ns.dropLast ++ [l ++ ".tmp-" ++ tag], n ≠ "" ∧ '/' ∉ n.toList := by
    intro n hn
    rcases List.mem_append.mp hn with hn | hn
    · exact ⟨(h.dropLast.noSlash n hn).1, (h.dropLast.noSlash n hn).2.2⟩
    · rw [List.mem_singleton.mp hn]
      exact ⟨hname.1, hname.2.2.2⟩
  have hplace := hleads.reverse_eq hlinks
    (ht.isName_of_get? (by rw [get?_origin hcwd rooted]; simp)) hnames
  rw [List.foldl_append, List.foldl_cons, List.foldl_nil, cleanStep_isName _ _ hname] at hplace
  have hmem : l ++ ".tmp-" ++ tag ∈ place := by
    rw [← List.mem_reverse, hplace]
    exact List.mem_cons_self
  have hshort := hbound place node hget _ hmem
  rw [String.length_append] at hshort
  omega

end

/-! ## An export -/

/-- A ledger entry with its error text masked. -/
def maskedEntry (entry : Ledger.Entry) : Ledger.Entry := { entry with error := mask entry.error }

/-- How an export ended, with the text of a failure masked. -/
def maskedOutcome : Except Failure String → Except String String
  | .ok output => .ok output
  | .error f => .error (mask f.message)

/-- What comes of the export of a file: how it ends, what the ledger keeps, and what changes. -/
structure Fate where
  outcome : Except String String
  entries : List Ledger.Entry
  /-- The file that is put into the tree, if the export succeeds. -/
  change : Option (Place × Bytes)
  deriving Inhabited

/-- An export from the tree `t` ends as it should. -/
structure Fate.Met (fate : Fate) (t : FileTree) (o : Outcome) : Prop where
  outcome : maskedOutcome (o.result.map (·.output)) = fate.outcome
  entries : o.entries.map maskedEntry = fate.entries
  stays : fate.change = none → o.tree = t
  changes : ∀ c ∈ fate.change, Placed t o.tree c.1 c.2

/-- The place of the artifact of a file, if it gets one. -/
def outputPlace (e : Exporter) (cwd : Place) (input output file : String) : Option Place :=
  (outputPath (ofNames true cwd) e.naming file input output).toOption.map (placeOf cwd)

/-- A tag with which the export of a file can make its temporary file. -/
def Usable (e : Exporter) (cwd : Place) (input output file : String) (t : FileTree) (tag : String) :
    Prop :=
  IsTag tag ∧ ∀ target, outputPath (ofNames true cwd) e.naming file input output = .ok target →
    Unused t cwd tag target

theorem usable_of_look {e : Exporter} {cwd : Place} {input output file : String} {t : FileTree}
    {tag : String} (target : String) (errno : Errno) (htag : IsTag tag)
    (hpath : outputPath (ofNames true cwd) e.naming file input output = .ok target)
    (hlook : t.look cwd (freshPath tag target) false = .error errno) :
    Usable e cwd input output file t tag := by
  refine ⟨htag, fun target' htarget found => ?_⟩
  obtain rfl := Except.ok.inj (hpath.symm.trans htarget)
  exact unused_of_look errno hlook found

/-- The fate of a file is what comes of its export from every tree that is as the first to it. -/
structure Fate.IsOf (fate : Fate) (t₀ : FileTree) (e : Exporter) (cwd : Place)
    (input output file : String) : Prop where
  change : ∀ c ∈ fate.change, outputPlace e cwd input output file = some c.1 ∧
    t₀.get? c.1 ≠ some .directory
  met : ∀ {t tag}, Undisturbed t₀ t cwd (placeOf cwd file) (outputPlace e cwd input output file) →
    Usable e cwd input output file t tag →
      fate.Met t (e.exportFile ⟨cwd, tag⟩ t file input output)

section

variable {t₀ t : FileTree} {cwd source : Place} {file : String} {e : Exporter}

theorem read_of_file {rooted : Bool} {ns : List String} (ht : t.WellFormed)
    (hcwd : t.get? cwd = some .directory) (h : Cleaned rooted ns) {content : Bytes} {executable : Bool}
    (hfile : t.get? (placeOf cwd (ofNames rooted ns)) = some (.file content executable)) :
    t.read cwd (ofNames rooted ns) = .ok content := by
  rw [FileTree.read, status_of_locate (locate_file ht hcwd h hfile)]

theorem exportFile_entries (e : Exporter) (site : Site) (t : FileTree) (file input output : String) :
    (e.exportFile site t file input output).entries =
      if e.recorder.isSome then
        [(e.attempt site t file input output).entry (absolute site.cwdPath file)] else [] := by
  unfold Exporter.exportFile
  cases e.recorder <;> rfl

theorem maskedEntry_failed {p : Progress} {f : Failure} (h : p.result = .error f) (path : String) :
    maskedEntry (p.entry path) =
      ⟨path, p.sourceHash, "", (Ledger.Status.ofFailure f).text, mask f.message, p.compiler, none⟩ := by
  rw [Progress.entry, h]
  rfl

theorem maskedEntry_done {p : Progress} {r : Result} (h : p.result = .ok r) (path : String) :
    maskedEntry (p.entry path) =
      ⟨path, p.sourceHash, r.output, Ledger.Status.ok.text, "", p.compiler, none⟩ := by
  rw [Progress.entry, h]
  rfl

variable {input output : String}

-- Attempts that fail alike and leave the tree alone have one fate.
theorem exists_fate_of_failure (hash compiler text : String) (status : Ledger.Status)
    (h : ∀ {t tag}, Undisturbed t₀ t cwd (placeOf cwd file) (outputPlace e cwd input output file) →
      Usable e cwd input output file t tag → ∃ f requests events, mask f.message = text ∧
      Ledger.Status.ofFailure f = status ∧
      e.attempt ⟨cwd, tag⟩ t file input output = ⟨.error f, t, hash, compiler, requests, events⟩) :
    ∃ fate : Fate, fate.IsOf t₀ e cwd input output file := by
  refine ⟨⟨.error text, if e.recorder.isSome then
    [⟨absolute (ofNames true cwd) file, hash, "", status.text, text, compiler, none⟩] else [], none⟩,
    (fun _ hc => nomatch hc), fun {t tag} hu husable => ?_⟩
  obtain ⟨f, requests, events, htext, hstatus, hattempt⟩ := h hu husable
  refine ⟨?_, ?_, fun _ => ?_, fun c hc => nomatch hc⟩
  · rw [exportFile_result, hattempt, ← htext]
    rfl
  · rw [exportFile_entries, hattempt]
    split
    · rw [List.map_singleton, maskedEntry_failed rfl, hstatus, htext]
      rfl
    · rfl
  · simp [hattempt]

theorem exists_fate_of_success (hash compiler target : String) (content : Bytes) {place : Place}
    (hplace : outputPlace e cwd input output file = some place)
    (hnot : t₀.get? place ≠ some .directory)
    (h : ∀ {t tag}, Undisturbed t₀ t cwd (placeOf cwd file) (some place) →
      Usable e cwd input output file t tag → ∃ t' requests events, Placed t t' place content ∧
      e.attempt ⟨cwd, tag⟩ t file input output =
        ⟨.ok ⟨file, target, hash, compiler⟩, t', hash, compiler, requests, events⟩) :
    ∃ fate : Fate, fate.IsOf t₀ e cwd input output file := by
  refine ⟨⟨.ok target, if e.recorder.isSome then
    [⟨absolute (ofNames true cwd) file, hash, target, Ledger.Status.ok.text, "", compiler, none⟩] else [],
    some (place, content)⟩, fun c hc => ?_, fun {t tag} hu husable => ?_⟩
  · cases hc
    exact ⟨hplace, hnot⟩
  rw [hplace] at hu
  obtain ⟨t', requests, events, hplaced, hattempt⟩ := h hu husable
  refine ⟨?_, ?_, (fun hc => nomatch hc), fun c hc => ?_⟩
  · rw [exportFile_result, hattempt]
    rfl
  · rw [exportFile_entries, hattempt]
    split
    · rw [List.map_singleton, maskedEntry_done rfl]
      rfl
    · rfl
  · cases hc
    rw [exportFile_tree, hattempt]
    exact hplaced

theorem readSource_undisturbed {rooted : Bool} {ns : List String} {target : Option Place}
    (ht₀ : t₀.WellFormed) (hcwd₀ : t₀.get? cwd = some .directory) (h : Cleaned rooted ns)
    {content : Bytes} {executable : Bool}
    (hsource : t₀.get? (placeOf cwd (ofNames rooted ns)) = some (.file content executable))
    (hu : Undisturbed t₀ t cwd (placeOf cwd (ofNames rooted ns)) target) :
    readSource t cwd (ofNames rooted ns) = readSource t₀ cwd (ofNames rooted ns) := by
  have hsource' := hu.sourceKept.trans hsource
  rw [readSource, readSource, read_of_file ht₀ hcwd₀ h hsource,
    read_of_file hu.wellFormed hu.directory h hsource']

/-! ### How far an attempt comes -/

section Attempt

theorem cwdPath_mk (cwd : Place) (tag : String) : Site.cwdPath ⟨cwd, tag⟩ = ofNames true cwd := by
  rw [Site.cwdPath, ofNames, if_pos rfl]

theorem place_homeless {f : Failure} {tree : Ast.Tree}
    (hpath : outputPath (ofNames true cwd) e.naming file input output = .error f) (tag : String) :
    e.place ⟨cwd, tag⟩ t file input output tree = (.error f, t) := by
  unfold Exporter.place
  rw [cwdPath_mk, hpath]

theorem place_unwritable {f : Failure} {target : String} {tree : Ast.Tree}
    (hpath : outputPath (ofNames true cwd) e.naming file input output = .ok target)
    (hencode : tryEncode e.indent tree.root = .error f) (tag : String) :
    e.place ⟨cwd, tag⟩ t file input output tree = (.error (.during s!"encode AST of {file}" f), t) := by
  unfold Exporter.place
  rw [cwdPath_mk, hpath]
  dsimp only
  rw [hencode]

theorem place_of_path {target tag : String} {tree : Ast.Tree} {written : Except Failure Unit}
    {t' : FileTree} (hpath : outputPath (ofNames true cwd) e.naming file input output = .ok target)
    (hencode : tryEncode e.indent tree.root = .ok (encode e.indent tree.root))
    (h : placeFile t cwd tag target (encode e.indent tree.root) = (written, t')) :
    e.place ⟨cwd, tag⟩ t file input output tree = (written.map fun _ => target, t') := by
  unfold Exporter.place
  rw [cwdPath_mk, hpath]
  dsimp only
  rw [hencode]
  dsimp only
  rw [h]
  cases written <;> rfl

theorem outputPlace_of_ok {target : String}
    (hpath : outputPath (ofNames true cwd) e.naming file input output = .ok target) :
    outputPlace e cwd input output file = some (placeOf cwd target) := by
  rw [outputPlace, hpath]
  rfl

variable (site : Site) {parser : Parser} {bytes : Bytes} {f : Failure} (hparser : e.parser = some parser)

include hparser

theorem attempt_unread (hread : readSource t site.cwd file = .error f) :
    e.attempt site t file input output = ⟨.error f, t, "", "", [], []⟩ := by
  simp only [Exporter.attempt, hparser, hread]

variable (hread : readSource t site.cwd file = .ok bytes)

include hread

theorem attempt_unparsed (hparse : (parser file bytes).outcome = .error f) :
    e.attempt site t file input output =
      ⟨.error f, t, Hash.Keccak.hashText bytes, "", (parser file bytes).requests,
        (parser file bytes).events⟩ := by
  simp only [Exporter.attempt, hparser, hread, hparse]

variable {tree : Ast.Tree} (hparse : (parser file bytes).outcome = .ok tree)

include hparse

theorem attempt_unplaced {t' : FileTree}
    (hplace : e.place site t file input output tree = (.error f, t')) :
    e.attempt site t file input output =
      ⟨.error f, t', Hash.Keccak.hashText bytes, tree.compiler.text, (parser file bytes).requests,
        (parser file bytes).events⟩ := by
  simp only [Exporter.attempt, hparser, hread, hparse, hplace]

theorem attempt_placed {target : String} {t' : FileTree}
    (hplace : e.place site t file input output tree = (.ok target, t')) :
    ∃ events, e.attempt site t file input output =
      ⟨.ok ⟨file, target, Hash.Keccak.hashText bytes, tree.compiler.text⟩, t', Hash.Keccak.hashText bytes,
        tree.compiler.text, (parser file bytes).requests, events⟩ := by
  simp only [Exporter.attempt, hparser, hread, hparse, hplace]
  exact ⟨_, rfl⟩

end Attempt

/-- The first tree alone tells what comes of the export of one of its files. -/
theorem exists_fate (ht₀ : t₀.WellFormed) (hcwd₀ : t₀.get? cwd = some .directory) (e : Exporter)
    (input output : String) {rooted : Bool} {ns : List String} (h : Cleaned rooted ns)
    {content : Bytes} {executable : Bool}
    (hsource : t₀.get? (placeOf cwd (ofNames rooted ns)) = some (.file content executable)) :
    ∃ fate : Fate, fate.IsOf t₀ e cwd input output (ofNames rooted ns) := by
  have hread : ∀ {t target}, Undisturbed t₀ t cwd (placeOf cwd (ofNames rooted ns)) target →
      readSource t cwd (ofNames rooted ns) = readSource t₀ cwd (ofNames rooted ns) :=
    fun hu => readSource_undisturbed ht₀ hcwd₀ h hsource hu
  generalize ofNames rooted ns = file at hread ⊢
  -- Each step before the artifact is placed fails in every tree or in none.
  cases hparser : e.parser with
  | none =>
    refine exists_fate_of_failure "" "" (mask "exporter: parser is nil") .failed fun {t tag} hu _ =>
      ⟨.told "exporter: parser is nil", [], [], rfl, rfl, ?_⟩
    rw [Exporter.attempt, hparser]
  | some parser =>
  cases hbytes : readSource t₀ cwd file with
  | error f =>
    exact exists_fate_of_failure "" "" (mask f.message) (.ofFailure f) fun {t tag} hu _ =>
      ⟨f, [], [], rfl, rfl, attempt_unread ⟨cwd, tag⟩ hparser ((hread hu).trans hbytes)⟩
  | ok bytes =>
  cases hparse : (parser file bytes).outcome with
  | error f =>
    exact exists_fate_of_failure (Hash.Keccak.hashText bytes) "" (mask f.message) (.ofFailure f)
      fun {t tag} hu _ =>
        ⟨f, _, _, rfl, rfl, attempt_unparsed ⟨cwd, tag⟩ hparser ((hread hu).trans hbytes) hparse⟩
  | ok tree =>
  cases hpath : outputPath (ofNames true cwd) e.naming file input output with
  | error f =>
    refine exists_fate_of_failure (Hash.Keccak.hashText bytes) tree.compiler.text (mask f.message)
      (.ofFailure f) fun {t tag} hu _ => ?_
    have hplace : e.place ⟨cwd, tag⟩ t file input output tree = (.error f, t) := place_homeless hpath tag
    have hattempt := attempt_unplaced ⟨cwd, tag⟩ hparser ((hread hu).trans hbytes) hparse hplace
    exact ⟨f, _, _, rfl, rfl, hattempt⟩
  | ok target =>
  cases hencode : tryEncode e.indent tree.root with
  | error f =>
    have hplace := fun t tag => place_unwritable (t := t) hpath hencode tag
    generalize Failure.during _ f = f at hplace
    refine exists_fate_of_failure (Hash.Keccak.hashText bytes) tree.compiler.text (mask f.message)
      (.ofFailure f) fun {t tag} hu _ => ?_
    have hattempt := attempt_unplaced ⟨cwd, tag⟩ hparser ((hread hu).trans hbytes) hparse (hplace t tag)
    exact ⟨f, _, _, rfl, rfl, hattempt⟩
  | ok content =>
  obtain rfl := tryEncode_eq_ok hencode
  obtain ⟨p, rfl⟩ := outputPath_eq_clean hpath
  have hout := outputPlace_of_ok hpath
  rcases placeFile_fate ht₀ hcwd₀ (placeOf cwd file) p (encode e.indent tree.root) with
    ⟨text, hfails⟩ | ⟨hnot, hplaces⟩
  · refine exists_fate_of_failure (Hash.Keccak.hashText bytes) tree.compiler.text text .failed
      fun {t tag} hu husable => ?_
    rw [hout] at hu
    obtain ⟨f, herr, htext, hstatus⟩ := hfails hu husable.1 (husable.2 _ hpath)
    have hplace : e.place ⟨cwd, tag⟩ t file input output tree = (.error f, t) := place_of_path hpath hencode herr
    have hattempt := attempt_unplaced ⟨cwd, tag⟩ hparser ((hread hu).trans hbytes) hparse hplace
    exact ⟨f, _, _, htext, hstatus, hattempt⟩
  · refine exists_fate_of_success (Hash.Keccak.hashText bytes) tree.compiler.text (clean p)
      (encode e.indent tree.root) hout hnot fun {t tag} hu husable => ?_
    obtain ⟨t', hok, hplaced⟩ := hplaces hu husable.1 (husable.2 _ hpath)
    have hplace : e.place ⟨cwd, tag⟩ t file input output tree = (.ok (clean p), t') :=
      place_of_path hpath hencode hok
    obtain ⟨events, hattempt⟩ := attempt_placed ⟨cwd, tag⟩ hparser ((hread hu).trans hbytes) hparse hplace
    exact ⟨t', _, events, hplaced, hattempt⟩

/-- There is always a tag for one more temporary file. -/
theorem exists_usable (e : Exporter) (input output file : String) (ht : t.WellFormed)
    (hlinks : NoLinks t) (hcwd : t.get? cwd = some .directory) :
    ∃ tag, Usable e cwd input output file t tag := by
  cases hpath : outputPath (ofNames true cwd) e.naming file input output with
  | error f =>
    exact ⟨"0", isTag_of_all (by decide) (by decide), fun target htarget =>
      nomatch hpath.symm.trans htarget⟩
  | ok target =>
    obtain ⟨p, rfl⟩ := outputPath_eq_clean hpath
    obtain ⟨tag, htag, hunused⟩ := exists_unused ht hlinks hcwd (cleaned_cleanNames p)
    refine ⟨tag, htag, fun target htarget => ?_⟩
    obtain rfl : clean p = target := Except.ok.inj (hpath.symm.trans htarget)
    exact hunused

end

end SolidityAst.Export
