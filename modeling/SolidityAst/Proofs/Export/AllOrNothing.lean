import SolidityAst.Export.Exporter
import SolidityAst.Proofs.Export.Mirroring
import SolidityAst.Proofs.FileTree.Directories
import SolidityAst.Proofs.FileTree.Lexical

/-!
Exporting a file does all it should or nothing.

Three steps of an export touch the tree: directories are made, a new file is written beside the target,
and the new file takes the target's place.  A step that fails undoes the new file.  Directories that were
made stay, but then nothing can be below them that makes a later step fail.
-/
namespace SolidityAst.Export

open FileTree SolidityAst.Path

variable {t t' : FileTree} {cwd place : Place} {tag : String} {rooted : Bool} {ns : List String}

/-! ## The new file -/

theorem isName_fresh {name : String} (hname : '/' ∉ name.toList) (htag : '/' ∉ tag.toList) :
    IsName (name ++ ".tmp-" ++ tag) := by
  have hlong : 5 ≤ (name ++ ".tmp-" ++ tag).length := by
    have hmark : ".tmp-".length = 5 := by decide
    rw [String.length_append, String.length_append, hmark]
    omega
  refine ⟨?_, ?_, ?_, ?_⟩
  · intro he
    rw [he] at hlong
    exact absurd hlong (by decide)
  · intro he
    rw [he] at hlong
    exact absurd hlong (by decide)
  · intro he
    rw [he] at hlong
    exact absurd hlong (by decide)
  · simp [hname, htag]

theorem fresh_ne (name tag : String) : name ++ ".tmp-" ++ tag ≠ name := by
  intro he
  have hlen := congrArg String.length he
  have hmark : ".tmp-".length = 5 := by decide
  rw [String.length_append, String.length_append, hmark] at hlen
  omega

-- A path that only leads up has no last name; what is taken for one has no slash either.
theorem splitLast_cleaned (h : Cleaned rooted ns) :
    ∃ l, splitLast (ofNames rooted ns) = (lead rooted ns.dropLast, l) ∧ '/' ∉ l.toList := by
  rcases List.eq_nil_or_concat' ns with rfl | ⟨init, l, rfl⟩
  · cases rooted with
    | true => exact ⟨"", by decide, by decide⟩
    | false => exact ⟨".", by decide, by decide⟩
  · rw [List.dropLast_concat]
    exact ⟨l, splitLast_ofNames h, (h.noSlash l (by simp)).2.2⟩

/-- The path of the new file. -/
def freshPath (tag path : String) : String :=
  (if (splitLast path).1 = "" then "./" else (splitLast path).1) ++
    ((splitLast path).2 ++ ".tmp-" ++ tag)

theorem freshPath_eq {path dir name : String} (h : splitLast path = (dir, name)) :
    (if dir = "" then "./" else dir) ++ name ++ ".tmp-" ++ tag = freshPath tag path := by
  rw [freshPath, h]
  simp only [String.append_assoc]

section

variable {path : String} {content : Bytes} {fresh : Place}

theorem replaceFile_of_create_error {e : FileError}
    (h : t.create cwd (freshPath tag path) content = .error e) :
    replaceFile t cwd tag path content =
      (.error (.during "failed to create temp output file" (.base (.file e))), t) := by
  rcases hsplit : splitLast path with ⟨dir, name⟩
  rw [← freshPath_eq hsplit] at h
  simp only [replaceFile, hsplit, h]

theorem replaceFile_of_rename_error {e : FileError}
    (hcreate : t.create cwd (freshPath tag path) content = .ok (fresh, t'))
    (h : t'.rename cwd fresh (freshPath tag path) path = .error e) :
    replaceFile t cwd tag path content =
      (.error (.during "failed to finalize output file" (.base (.file e))), t'.erase fresh) := by
  rcases hsplit : splitLast path with ⟨dir, name⟩
  rw [← freshPath_eq hsplit] at hcreate h
  simp only [replaceFile, hsplit, hcreate, h]

theorem replaceFile_of_rename {t'' : FileTree}
    (hcreate : t.create cwd (freshPath tag path) content = .ok (fresh, t'))
    (h : t'.rename cwd fresh (freshPath tag path) path = .ok t'') :
    replaceFile t cwd tag path content = (.ok (), t'') := by
  rcases hsplit : splitLast path with ⟨dir, name⟩
  rw [← freshPath_eq hsplit] at hcreate h
  simp only [replaceFile, hsplit, hcreate, h]

end

theorem create_beside (h : Cleaned rooted ns)
    (hdir : t.locate cwd (ofNames rooted ns) true = .ok (.node place .directory))
    {name : String} (hname : IsName name) (content : Bytes) :
    (∃ e, t.get? (place ++ [name]) ≠ none ∧
      t.create cwd ((if lead rooted ns = "" then "./" else lead rooted ns) ++ name) content =
        .error e) ∨
    (t.get? (place ++ [name]) = none ∧
      t.create cwd ((if lead rooted ns = "" then "./" else lead rooted ns) ++ name) content =
        .ok (place ++ [name], t.insert (place ++ [name]) (.file content false))) := by
  have hloc := locate_beside t cwd h hname.1 hname.2.2.2 false
  rw [follow_in h hdir hname] at hloc
  unfold create
  cases hget : t.get? (place ++ [name]) with
  | none =>
    rw [hloc, entry_of_none hget]
    exact .inr ⟨rfl, rfl⟩
  | some node =>
    rw [hloc, entry_of_some hget]
    exact .inl ⟨_, by simp, rfl⟩

/-! ## Taking the target's place -/

theorem rename_of_directory {place target : Place} {new : String} {moved : Node} (old : String)
    (hloc : t.locate cwd new false = .ok (.node target .directory)) (hget : t.get? place = some moved) :
    t.rename cwd place old new = .error ⟨"rename", old ++ " " ++ new, .occupied⟩ := by
  unfold rename
  rw [hloc, hget]

theorem rename_entry {place dir : Place} {name new : String} {moved : Node} (old : String)
    (hloc : t.locate cwd new false = .ok (t.entry dir name)) (hget : t.get? place = some moved)
    (hnot : t.get? (dir ++ [name]) ≠ some .directory) :
    t.rename cwd place old new = .ok ((t.erase place).insert (dir ++ [name]) moved) := by
  unfold rename
  cases hentry : t.get? (dir ++ [name]) with
  | none => rw [hloc, entry_of_none hentry, hget]
  | some node =>
    rw [hloc, entry_of_some hentry, hget]
    cases node with
    | directory => exact absurd hentry hnot
    | file content executable => rfl
    | link target => rfl

theorem get?_fresh {fresh : Place} (content : Bytes) (hfree : t.get? fresh = none) :
    (t.insert fresh (.file content false)).get? fresh = some (.file content false) := by
  rw [get?_insert _ _ (ne_nil_of_get?_none hfree), if_pos rfl]

/-- The failure of a file whose target is a directory. -/
def occupied (tag path : String) : Failure :=
  .during "failed to finalize output file"
    (.base (.file ⟨"rename", freshPath tag path ++ " " ++ path, .occupied⟩))

section

variable {fresh : Place} {path : String} {content : Bytes}
  (hfree : t.get? fresh = none)
  (hcreate : t.create cwd (freshPath tag path) content =
    .ok (fresh, t.insert fresh (.file content false)))

include hfree hcreate

-- A directory does not give way, and the new file is taken away again.
theorem replaceFile_of_directory {target : Place}
    (hloc : (t.insert fresh (.file content false)).locate cwd path false =
      .ok (.node target .directory)) :
    replaceFile t cwd tag path content = (.error (occupied tag path), t) := by
  have herr := rename_of_directory (freshPath tag path) hloc (get?_fresh content hfree)
  rw [replaceFile_of_rename_error hcreate herr, erase_insert _ hfree]
  rfl

-- Anything else does, and the file is where the new one was not.
theorem replaceFile_of_entry {dir : Place} {name : String}
    (hloc : (t.insert fresh (.file content false)).locate cwd path false =
      .ok ((t.insert fresh (.file content false)).entry dir name))
    (hnot : (t.insert fresh (.file content false)).get? (dir ++ [name]) ≠ some .directory) :
    replaceFile t cwd tag path content =
      (.ok (), t.insert (dir ++ [name]) (.file content false)) := by
  have hrename := rename_entry (freshPath tag path) hloc (get?_fresh content hfree) hnot
  rw [erase_insert _ hfree] at hrename
  exact replaceFile_of_rename hcreate hrename

end

-- Which of the two it is, is told by the target alone.
theorem replaceFile_beside {name : String} {content : Bytes} (h : Cleaned rooted ns)
    (hdir : t.locate cwd (ofNames rooted ns) true = .ok (.node place .directory)) (hname : IsName name)
    (hfree : t.get? (place ++ [name ++ ".tmp-" ++ tag]) = none)
    (hcreate : t.create cwd (freshPath tag (ofNames rooted (ns ++ [name]))) content =
      .ok (place ++ [name ++ ".tmp-" ++ tag],
        t.insert (place ++ [name ++ ".tmp-" ++ tag]) (.file content false))) :
    replaceFile t cwd tag (ofNames rooted (ns ++ [name])) content =
      if t.get? (place ++ [name]) = some .directory then
        (.error (occupied tag (ofNames rooted (ns ++ [name]))), t)
      else (.ok (), t.insert (place ++ [name]) (.file content false)) := by
  have hloc := locate_in h (locate_extends (extends_insert (.file content false) hfree) hdir) hname
  have hkept : (t.insert (place ++ [name ++ ".tmp-" ++ tag]) (.file content false)).get? (place ++ [name]) =
      t.get? (place ++ [name]) := by
    rw [get?_insert _ _ (by simp), if_neg]
    simpa using (fresh_ne name tag).symm
  by_cases hnot : t.get? (place ++ [name]) = some .directory
  · rw [if_pos hnot]
    rw [entry_of_some (hkept.trans hnot)] at hloc
    exact replaceFile_of_directory hfree hcreate hloc
  · rw [if_neg hnot]
    exact replaceFile_of_entry hfree hcreate hloc (by rwa [hkept])

/-! ## The whole -/

/-- The second tree is the first with a file put at a place, in place of a file or link that was there,
and with the directories made that were missing above it. -/
structure Placed (t t' : FileTree) (place : Place) (content : Bytes) : Prop where
  wellFormed : t'.WellFormed
  nodes : ∀ q, t'.get? q =
    if q = place then some (.file content false)
    else if q <+: place ∧ t.get? q = none then some .directory
    else t.get? q

theorem placed_insert (hopened : Opened t t' place) {name : String} (hname : IsName name)
    (hnot : t'.get? (place ++ [name]) ≠ some .directory) (content : Bytes) :
    Placed t (t'.insert (place ++ [name]) (.file content false)) (place ++ [name]) content where
  wellFormed := hopened.wellFormed.insert _ hopened.directory hname hnot
  nodes := by
    intro q
    rw [get?_insert _ _ (by simp)]
    by_cases hq : q = place ++ [name]
    · rw [if_pos hq, if_pos hq]
    · have hshorter : q <+: place ++ [name] ↔ q <+: place := by
        rw [List.prefix_concat_iff, or_iff_right hq]
      rw [if_neg hq, if_neg hq, hopened.nodes]
      simp only [hshorter]

-- What can be known of a directory that a path only leading up names: it was there before.
theorem eq_of_ups (ht : t.WellFormed) (hcwd : t.get? cwd = some .directory) (h : Cleaned rooted ns)
    (hups : ∀ n ∈ ns, n = "..") (hopened : Opened t t' place)
    (hdir : t'.locate cwd (ofNames rooted ns) true = .ok (.node place .directory)) : t' = t := by
  obtain ⟨q, hq⟩ := follow_ups t ⟨true, rooted && ns.isEmpty⟩ maxLinks (origin cwd rooted) hups
  rw [← locate_ofNames _ _ h] at hq
  have hsame := locate_extends hopened.toExtends hq
  rw [hdir, Except.ok.injEq, Target.node.injEq] at hsame
  refine hopened.unchanged ?_
  rw [hsame.1, get?_of_locate ht hcwd hq]
  simp

/-- Writing a file into a directory that was just made sure of puts the file there, unless the name of the
new file is taken or the target is a directory.  Then it leaves the tree from before. -/
theorem replaceFile_opened (ht : t.WellFormed) (hcwd : t.get? cwd = some .directory)
    (htag : '/' ∉ tag.toList) (h : Cleaned rooted ns) (hopened : Opened t t' place)
    (hdir : t'.locate cwd (ofNames rooted ns.dropLast) true = .ok (.node place .directory))
    (content : Bytes) :
    (∃ f found, t.look cwd (freshPath tag (ofNames rooted ns)) false = .ok found ∧
      replaceFile t' cwd tag (ofNames rooted ns) content = (.error f, t)) ∨
    (∃ q, t.look cwd (ofNames rooted ns) false = .ok (q, .directory) ∧
      replaceFile t' cwd tag (ofNames rooted ns) content = (.error (occupied tag (ofNames rooted ns)), t)) ∨
    ∃ name t'', IsName name ∧ ns = ns.dropLast ++ [name] ∧
      t'.get? (place ++ [name]) ≠ some .directory ∧
      replaceFile t' cwd tag (ofNames rooted ns) content = (.ok (), t'') ∧
      Placed t t'' (place ++ [name]) content := by
  obtain ⟨l, hsplit, hl⟩ := splitLast_cleaned h
  have hfresh := isName_fresh hl htag
  have hinit := h.dropLast
  have hpath : freshPath tag (ofNames rooted ns) =
      (if lead rooted ns.dropLast = "" then "./" else lead rooted ns.dropLast) ++
        (l ++ ".tmp-" ++ tag) := by
    rw [freshPath, hsplit]
  rcases create_beside hinit hdir hfresh content with ⟨e, hthere, hcreate⟩ | ⟨hfree, hcreate⟩
  · obtain rfl := hopened.eq_of_get?_below ht hthere
    obtain ⟨node, hnode⟩ := Option.ne_none_iff_exists'.mp hthere
    have hlook : t'.look cwd (freshPath tag (ofNames rooted ns)) false =
        .ok (place ++ [l ++ ".tmp-" ++ tag], node) := by
      rw [look, hpath, locate_beside t' cwd hinit hfresh.1 hfresh.2.2.2, follow_in hinit hdir hfresh,
        entry_of_some hnode]
    rw [← hpath] at hcreate
    exact .inl ⟨_, _, hlook, replaceFile_of_create_error hcreate⟩
  rw [← hpath] at hcreate
  by_cases hups : ∀ n ∈ ns, n = ".."
  · obtain rfl := eq_of_ups ht hcwd hinit (fun n hn => hups n (List.dropLast_subset ns hn)) hopened hdir
    obtain ⟨q, hq⟩ := follow_ups (t'.insert (place ++ [l ++ ".tmp-" ++ tag]) (.file content false))
      ⟨false, rooted && ns.isEmpty⟩ maxLinks (origin cwd rooted) hups
    rw [← locate_ofNames _ _ h] at hq
    obtain ⟨q', hq'⟩ := follow_ups t' ⟨false, rooted && ns.isEmpty⟩ maxLinks (origin cwd rooted) hups
    rw [← locate_ofNames _ _ h] at hq'
    exact .inr (.inl ⟨q', by rw [look, hq'], replaceFile_of_directory hfree hcreate hq⟩)
  obtain ⟨init, hns⟩ : ∃ init, ns = init ++ [l] := by
    rcases List.eq_nil_or_concat' ns with rfl | ⟨init, m, rfl⟩
    · simp at hups
    · have hm := hsplit.symm.trans (splitLast_ofNames h)
      rw [Prod.mk.injEq] at hm
      exact ⟨init, by rw [hm.2]⟩
  subst hns
  have hname : IsName l := h.isName_or_ups.resolve_right hups
  rw [List.dropLast_concat] at hdir hinit ⊢
  have hreplace := replaceFile_beside hinit hdir hname hfree hcreate
  by_cases hnot : t'.get? (place ++ [l]) = some .directory
  · obtain rfl := hopened.eq_of_get?_below ht (by rw [hnot]; simp)
    rw [if_pos hnot] at hreplace
    have hlook : t'.look cwd (ofNames rooted (init ++ [l])) false = .ok (place ++ [l], .directory) := by
      rw [look, locate_in hinit hdir hname, entry_of_some hnot]
    exact .inr (.inl ⟨_, hlook, hreplace⟩)
  · rw [if_neg hnot] at hreplace
    exact .inr (.inr ⟨l, _, hname, rfl, hnot, hreplace, placed_insert hopened hname hnot content⟩)

/-- Placing a file fails and changes nothing, or puts the file in the directory its path leads to. -/
theorem placeFile_cleaned (ht : t.WellFormed) (hcwd : t.get? cwd = some .directory)
    (htag : '/' ∉ tag.toList) (h : Cleaned rooted ns) (content : Bytes) :
    (∃ f, placeFile t cwd tag (ofNames rooted ns) content = (.error f, t)) ∨
    ∃ init name t' t'' place, ns = init ++ [name] ∧ IsName name ∧
      placeFile t cwd tag (ofNames rooted ns) content = (.ok (), t'') ∧
      Opened t t' place ∧ t'.locate cwd (ofNames rooted init) true = .ok (.node place .directory) ∧
      Placed t t'' (place ++ [name]) content := by
  have hinit := h.dropLast
  unfold placeFile
  rw [dir_ofNames h]
  rcases makeDirectories_ensures ht hcwd hinit with ⟨e, he⟩ | ⟨t', place, hok, hopened, hdir⟩
  · rw [he]
    exact .inl ⟨_, rfl⟩
  rw [hok]
  rcases replaceFile_opened ht hcwd htag h hopened hdir content with
    ⟨f, _, -, hf⟩ | ⟨_, -, hf⟩ | ⟨name, t'', hname, hns, -, hplace, hplaced⟩
  · exact .inl ⟨f, hf⟩
  · exact .inl ⟨_, hf⟩
  · exact .inr ⟨ns.dropLast, name, t', t'', place, hns, hname, hplace, hopened, hdir, hplaced⟩

/-! ## Without links -/

theorem Opened.linkFree {q : Place} (hopened : Opened t t' place) (h : LinkFree t q) :
    LinkFree t' q := by
  intro p hp target
  rw [hopened.nodes]
  split
  · simp
  · exact h p hp target

/-- A placed file is found under its path, when no link is on the way. -/
theorem look_placed {init : List String} {name : String} {content : Bytes}
    (hcwd : ∀ n ∈ cwd, IsName n) (h : Cleaned rooted init) (hname : IsName name)
    (hplaced : Placed t t' (placeOf cwd (ofNames rooted init) ++ [name]) content) :
    t'.look cwd (ofNames rooted (init ++ [name])) false =
      .ok (placeOf cwd (ofNames rooted init) ++ [name], .file content false) := by
  have hfile : t'.get? (placeOf cwd (ofNames rooted init) ++ [name]) = some (.file content false) := by
    rw [hplaced.nodes, if_pos rfl]
  have hdir := hplaced.wellFormed.rooted _ name (by rw [hfile]; simp)
  have hloc := locate_in h (locate_placeOf hplaced.wellFormed hcwd h true hdir) hname
  rw [look, hloc, entry_of_some hfile]

/-- Placing a file at a cleaned path fails and changes nothing, or puts the file where the path says. -/
theorem placeFile_clean (ht : t.WellFormed) (hcwd : t.get? cwd = some .directory)
    (htag : '/' ∉ tag.toList) (p : String) (content : Bytes) :
    (∃ f, placeFile t cwd tag (clean p) content = (.error f, t)) ∨
    ∃ t', placeFile t cwd tag (clean p) content = (.ok (), t') ∧
      (LinkFree t (placeOf cwd (dir (clean p))) →
        Placed t t' (placeOf cwd (clean p)) content ∧
        t'.look cwd (clean p) false = .ok (placeOf cwd (clean p), .file content false)) := by
  have hnames : ∀ n ∈ cwd, IsName n := ht.isName_of_get? (by rw [hcwd]; simp)
  have hcleaned := cleaned_cleanNames p
  unfold clean
  rw [dir_ofNames hcleaned]
  rcases placeFile_cleaned ht hcwd htag hcleaned content with
    hfail | ⟨init, name, t', t'', place, hns, hname, hok, hopened, hdir, hplaced⟩
  · exact .inl hfail
  rw [hns] at hok hcleaned ⊢
  rw [List.dropLast_concat]
  refine .inr ⟨t'', hok, fun hfree => ?_⟩
  have hinit := hcleaned.of_append
  have hplace := locate_linkFree hnames hinit (Opened.linkFree hopened hfree) hdir
  rw [hplace] at hplaced
  rw [placeOf_concat hnames hinit hname]
  exact ⟨hplaced, look_placed hnames hinit hname hplaced⟩

/-! ## An export -/

section

variable (e : Exporter) (site : Site) (t : FileTree) (file input output : String)

@[simp] theorem exportFile_result :
    (e.exportFile site t file input output).result = (e.attempt site t file input output).result := by
  unfold Exporter.exportFile
  cases e.recorder <;> rfl

@[simp] theorem exportFile_tree :
    (e.exportFile site t file input output).tree = (e.attempt site t file input output).tree := by
  unfold Exporter.exportFile
  cases e.recorder <;> rfl

theorem tryEncode_eq_ok {indent : String} {root : Json} {content : Bytes}
    (h : tryEncode indent root = .ok content) : content = encode indent root := by
  unfold tryEncode at h
  split at h
  · cases h
  · exact (Except.ok.inj h).symm

-- An attempt ends with an error before anything is written, or as placing the artifact ends.
theorem attempt_cases :
    (∃ f, (e.attempt site t file input output).result = .error f ∧
      (e.attempt site t file input output).tree = t) ∨
    ∃ parser source parsed target, e.parser = some parser ∧
      readSource t site.cwd file = .ok source ∧ (parser file source).outcome = .ok parsed ∧
      outputPath site.cwdPath e.naming file input output = .ok target ∧
      tryEncode e.indent parsed.root = .ok (encode e.indent parsed.root) ∧
      (e.attempt site t file input output).tree =
        (placeFile t site.cwd site.tag target (encode e.indent parsed.root)).2 ∧
      ((e.attempt site t file input output).result.map (·.output)) =
        ((placeFile t site.cwd site.tag target (encode e.indent parsed.root)).1.map fun _ => target) := by
  unfold Exporter.attempt
  cases e.parser with
  | none => exact .inl ⟨_, rfl, rfl⟩
  | some parser =>
    cases readSource t site.cwd file with
    | error f => exact .inl ⟨f, rfl, rfl⟩
    | ok source =>
      dsimp only
      cases hparse : (parser file source).outcome with
      | error f => exact .inl ⟨f, rfl, rfl⟩
      | ok parsed =>
        dsimp only [Exporter.place]
        cases hpath : outputPath site.cwdPath e.naming file input output with
        | error f => exact .inl ⟨f, rfl, rfl⟩
        | ok target =>
        cases hencode : tryEncode e.indent parsed.root with
        | error f => exact .inl ⟨_, rfl, rfl⟩
        | ok content =>
          obtain rfl := tryEncode_eq_ok hencode
          refine .inr ⟨parser, source, parsed, target, rfl, rfl, hparse, rfl, hencode, ?_⟩
          dsimp only
          rcases placeFile t site.cwd site.tag target (encode e.indent parsed.root) with ⟨_ | _, t'⟩
          · exact ⟨rfl, rfl⟩
          · exact ⟨rfl, rfl⟩

end

/-- An export that fails leaves the tree as it was.  One that succeeds puts exactly the artifact at its
output path, whatever file or link was there, and makes the directories that were missing above it. -/
theorem exportFile_all_or_nothing (e : Exporter) (site : Site) (t : FileTree)
    (file input output : String) (ht : t.WellFormed) (hcwd : t.get? site.cwd = some .directory)
    (htag : '/' ∉ site.tag.toList) :
    (∀ f, (e.exportFile site t file input output).result = .error f →
      (e.exportFile site t file input output).tree = t) ∧
    ∀ r, (e.exportFile site t file input output).result = .ok r →
      LinkFree t (placeOf site.cwd (dir r.output)) →
      ∃ parser source parsed, e.parser = some parser ∧
        readSource t site.cwd file = .ok source ∧ (parser file source).outcome = .ok parsed ∧
        outputPath site.cwdPath e.naming file input output = .ok r.output ∧
        (e.exportFile site t file input output).tree.look site.cwd r.output false =
          .ok (placeOf site.cwd r.output, .file (encode e.indent parsed.root) false) ∧
        Placed t (e.exportFile site t file input output).tree (placeOf site.cwd r.output)
          (encode e.indent parsed.root) := by
  rw [exportFile_result, exportFile_tree]
  rcases attempt_cases e site t file input output with
    ⟨f, herr, htree⟩ | ⟨parser, source, parsed, target, hparser, hread, hparse, hpath, -, htree, hres⟩
  · refine ⟨fun _ _ => htree, fun r hr => ?_⟩
    rw [herr] at hr
    cases hr
  obtain ⟨p, rfl⟩ := outputPath_eq_clean hpath
  rw [htree]
  rcases placeFile_clean ht hcwd htag p (encode e.indent parsed.root) with ⟨f, hf⟩ | ⟨t', hok, hplaced⟩
  · rw [hf] at hres ⊢
    refine ⟨fun _ _ => rfl, fun r hr => ?_⟩
    rw [hr] at hres
    cases hres
  · rw [hok] at hres ⊢
    refine ⟨fun f hf => ?_, fun r hr hfree => ?_⟩
    · rw [hf] at hres
      cases hres
    · rw [hr] at hres
      have hout : r.output = clean p := Except.ok.inj hres
      rw [hout] at hfree ⊢
      obtain ⟨hplaced, hlook⟩ := hplaced hfree
      exact ⟨parser, source, parsed, hparser, hread, hparse, hpath, hlook, hplaced⟩

-- A source and an exporter with which the theorem is put to use.
def sampleTree : FileTree :=
  (FileTree.empty.insert ["in"] .directory).insert ["in", "A.sol"] (.file [] false)

def sampleExporter : Exporter :=
  ⟨some fun _ _ => ⟨[], [], .ok ⟨.null, "A.sol", ⟨"solc", ""⟩⟩⟩, none, .default, "  "⟩

theorem wellFormed_sampleTree : sampleTree.WellFormed := by decide

theorem linkFree_sampleTree : LinkFree sampleTree ["out"] := by
  intro q hq target
  have hlast : q <+: [] ++ ["out"] := hq
  rcases List.prefix_concat_iff.mp hlast with rfl | hnil
  · have hout : sampleTree.get? ([] ++ ["out"]) = none := by decide
    rw [hout]
    simp
  · rw [List.prefix_nil.mp hnil, get?_nil]
    simp

theorem exportFile_all_or_nothing_new_directory :
    (sampleExporter.exportFile ⟨[], "1"⟩ sampleTree "in/A.sol" "in" "out").tree.look []
        "out/A_ast.json" false =
      .ok (["out", "A_ast.json"], .file (encode "  " .null) false) := by
  have hpath : (sampleExporter.exportFile ⟨[], "1"⟩ sampleTree "in/A.sol" "in" "out").result.map
      (·.output) = .ok "out/A_ast.json" := by decide
  cases hres : (sampleExporter.exportFile ⟨[], "1"⟩ sampleTree "in/A.sol" "in" "out").result with
  | error f =>
    rw [hres] at hpath
    cases hpath
  | ok r =>
    rw [hres] at hpath
    have hout : r.output = "out/A_ast.json" := Except.ok.inj hpath
    have hdir : placeOf [] (dir "out/A_ast.json") = ["out"] := by decide
    have hplace : placeOf [] "out/A_ast.json" = ["out", "A_ast.json"] := by decide
    obtain ⟨parser, source, parsed, hparser, -, hparse, -, hlook, -⟩ :=
      (exportFile_all_or_nothing sampleExporter ⟨[], "1"⟩ sampleTree "in/A.sol" "in" "out"
        wellFormed_sampleTree rfl (by decide)).2 r hres (by rw [hout, hdir]; exact linkFree_sampleTree)
    cases hparser
    cases hparse
    rw [hout, hplace] at hlook
    exact hlook

end SolidityAst.Export
