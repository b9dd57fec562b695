import SolidityAst.Proofs.Export.Independence
import SolidityAst.Proofs.FileTree.Elsewhere

/-!
Exporting a file again.

An export reads its source and finds the directory of its target.  What stands at the target has no part in this,
unless it is the source itself or a link that is passed on the way.  Where it has none, a second export does what the
first one did, and of an older artifact nothing is left.
-/
namespace SolidityAst.Export

open FileTree SolidityAst.Path

/-! ## Placing a file -/

section

variable {t t' u opened : FileTree} {cwd dir : Place} {tag tag' : String} {rooted : Bool}
  {ns init : List String} {name : String} {content : Bytes}

theorem freshPath_concat (tag : String) (h : Cleaned rooted (init ++ [name])) :
    freshPath tag (ofNames rooted (init ++ [name])) =
      (if lead rooted init = "" then "./" else lead rooted init) ++ (name ++ ".tmp-" ++ tag) := by
  rw [freshPath, splitLast_ofNames h]

theorem replaceFile_eq_ok_iff (h : Cleaned rooted (init ++ [name])) (hname : IsName name)
    (htag : '/' ∉ tag.toList) (hdir : t.locate cwd (ofNames rooted init) true = .ok (.node dir .directory)) :
    replaceFile t cwd tag (ofNames rooted (init ++ [name])) content = (.ok (), t') ↔
      t.get? (dir ++ [name ++ ".tmp-" ++ tag]) = none ∧ t.get? (dir ++ [name]) ≠ some .directory ∧
        t' = t.insert (dir ++ [name]) (.file content false) := by
  rcases create_beside h.of_append hdir (isName_fresh hname.2.2.2 htag) content with
    ⟨e, htaken, hcreate⟩ | ⟨hfree, hcreate⟩
  · rw [← freshPath_concat tag h] at hcreate
    rw [replaceFile_of_create_error hcreate]
    simp [htaken]
  · rw [← freshPath_concat tag h] at hcreate
    rw [replaceFile_beside h.of_append hdir hname hfree hcreate]
    by_cases hnot : t.get? (dir ++ [name]) = some .directory
    · rw [if_pos hnot]
      simp [hnot]
    · rw [if_neg hnot]
      simp [hfree, hnot, eq_comm]

/-- A file can be placed in the directory `dir`, when those that are missing on the way to it are made. -/
structure Landing (t : FileTree) (cwd : Place) (tag : String) (rooted : Bool) (init : List String)
    (name : String) (opened : FileTree) (dir : Place) : Prop where
  cleaned : Cleaned rooted (init ++ [name])
  isName : IsName name
  made : t.makeDirectories cwd (ofNames rooted init) = (.ok (), opened)
  isOpened : Opened t opened dir
  leads : opened.locate cwd (ofNames rooted init) true = .ok (.node dir .directory)
  fresh : opened.get? (dir ++ [name ++ ".tmp-" ++ tag]) = none
  notDirectory : opened.get? (dir ++ [name]) ≠ some .directory

theorem Landing.placeFile_eq (h : Landing t cwd tag rooted init name opened dir) (htag : '/' ∉ tag.toList)
    (content : Bytes) :
    placeFile t cwd tag (ofNames rooted (init ++ [name])) content =
      (.ok (), opened.insert (dir ++ [name]) (.file content false)) := by
  unfold placeFile
  rw [dir_ofNames h.cleaned, List.dropLast_concat, h.made]
  exact (replaceFile_eq_ok_iff h.cleaned h.isName htag h.leads).mpr ⟨h.fresh, h.notDirectory, rfl⟩

/-- Only where it can be is a file placed. -/
theorem exists_landing (ht : t.WellFormed) (hcwd : t.get? cwd = some .directory) (htag : '/' ∉ tag.toList)
    (h : Cleaned rooted ns) (hok : (placeFile t cwd tag (ofNames rooted ns) content).1 = .ok ()) :
    ∃ init name opened dir, ns = init ++ [name] ∧ Landing t cwd tag rooted init name opened dir := by
  unfold placeFile at hok
  rw [dir_ofNames h] at hok
  rcases makeDirectories_ensures ht hcwd h.dropLast with ⟨e, herr⟩ | ⟨opened, dir, hmade, hopened, hdir⟩
  · rw [herr] at hok
    cases hok
  rw [hmade] at hok
  dsimp only at hok
  rcases replaceFile_opened ht hcwd htag h hopened hdir content with
    ⟨f, _, -, herr⟩ | ⟨_, -, herr⟩ | ⟨name, t'', hname, hns, -, hreplace, -⟩
  · rw [herr] at hok
    cases hok
  · rw [herr] at hok
    cases hok
  · rw [hns] at h hreplace
    obtain ⟨hfree, hnot, -⟩ := (replaceFile_eq_ok_iff h hname htag hdir).mp hreplace
    exact ⟨ns.dropLast, name, opened, dir, hns, h, hname, hmade, hopened, hdir, hfree, hnot⟩

/-- The tag serves for the temporary file, as the one that served before or as one that is not in use. -/
def Serves (t : FileTree) (cwd : Place) (target before tag : String) : Prop :=
  tag = before ∨ '/' ∉ tag.toList ∧ Unused t cwd tag target

theorem get?_fresh_of_serves (h : Cleaned rooted (init ++ [name])) (hname : IsName name)
    (hdir : t.locate cwd (ofNames rooted init) true = .ok (.node dir .directory))
    (hbefore : t.get? (dir ++ [name ++ ".tmp-" ++ tag]) = none)
    (hserves : Serves t cwd (ofNames rooted (init ++ [name])) tag tag') :
    t.get? (dir ++ [name ++ ".tmp-" ++ tag']) = none := by
  rcases hserves with rfl | ⟨htag, hunused⟩
  · exact hbefore
  · have hfresh := isName_fresh hname.2.2.2 htag
    cases hget : t.get? (dir ++ [name ++ ".tmp-" ++ tag']) with
    | none => rfl
    | some node =>
      have hlook : t.look cwd (freshPath tag' (ofNames rooted (init ++ [name]))) false =
          .ok (dir ++ [name ++ ".tmp-" ++ tag'], node) := by
        rw [look, freshPath_concat tag' h, locate_beside t cwd h.of_append hfresh.1 hfresh.2.2.2,
          follow_in h.of_append hdir hfresh, entry_of_some hget]
      exact absurd hlook (hunused _)

namespace Landing

variable (h : Landing t cwd tag rooted init name opened dir)

include h

theorem elsewhere (content : Bytes) :
    Elsewhere opened (opened.insert (dir ++ [name]) (.file content false)) (dir ++ [name]) :=
  Elsewhere.insert h.isOpened.wellFormed h.isOpened.directory h.isName h.notDirectory (by simp)

/-- Where the directory is found without what stands at the target, the file can be placed in every tree that differs
from the first one, or from what it was opened to, at the target only. -/
theorem again (ht : t.WellFormed)
    (haside : (opened.erase (dir ++ [name])).locate cwd (ofNames rooted init) true = .ok (.node dir .directory))
    (hu : Elsewhere t u (dir ++ [name]) ∨ Elsewhere opened u (dir ++ [name]))
    (hserves : Serves u cwd (ofNames rooted (init ++ [name])) tag tag') :
    ∃ opened', Elsewhere opened opened' (dir ++ [name]) ∧
      Landing u cwd tag' rooted init name opened' dir := by
  by_cases hmissing : t.get? dir = none ∧ Elsewhere t u (dir ++ [name])
  · -- The directory is made once more, and there is nothing in it that is in the way.
    obtain ⟨hnone, hu⟩ := hmissing
    obtain rfl := hu.eq_of_missing ht hnone
    have hfresh : opened.get? (dir ++ [name ++ ".tmp-" ++ tag']) = none := by
      by_contra htaken
      obtain rfl := h.isOpened.eq_of_get?_below ht htaken
      rw [h.isOpened.directory] at hnone
      cases hnone
    exact ⟨opened, .refl h.isOpened.wellFormed h.notDirectory, { h with fresh := hfresh }⟩
  · -- The directory is there, and the file goes into it at once.
    have hu' : Elsewhere opened u (dir ++ [name]) := by
      rcases hu with hu | hu
      · rw [h.isOpened.unchanged fun hnone => hmissing ⟨hnone, hu⟩]
        exact hu
      · exact hu
    have hdir := locate_extends (hu'.toExtends (by simp)) haside
    have hthere : u.get? dir = some .directory := by
      rw [hu'.nodes dir (by simp), h.isOpened.directory]
    have hbefore : u.get? (dir ++ [name ++ ".tmp-" ++ tag]) = none := by
      rw [hu'.nodes _ (by simpa using fresh_ne name tag), h.fresh]
    exact ⟨u, hu', h.cleaned, h.isName, makeDirectories_of_directory hdir, Opened.refl hu'.wellFormed hthere, hdir,
      get?_fresh_of_serves h.cleaned h.isName hdir hbefore hserves, hu'.notDirectory⟩

/-- Something at the target was there before. -/
theorem eq_of_occupied (ht : t.WellFormed) {node : Node} (hget : opened.get? (dir ++ [name]) = some node) :
    opened = t ∧ t.look cwd (ofNames rooted (init ++ [name])) false = .ok (dir ++ [name], node) := by
  obtain rfl := h.isOpened.eq_of_get?_below ht (by rw [hget]; simp)
  rw [look, locate_in h.cleaned.of_append h.leads h.isName, entry_of_some hget]
  exact ⟨rfl, rfl⟩

-- The place of the target is the same before and after.
theorem place_eq {place : Place} {node : Node}
    (hlook : t.look cwd (ofNames rooted (init ++ [name])) false = .ok (place, node)) : place = dir ++ [name] := by
  have hloc := locate_extends h.isOpened.toExtends (look_eq_ok_iff.mp hlook)
  rw [locate_in h.cleaned.of_append h.leads h.isName, entry] at hloc
  split at hloc
  · cases hloc
  · cases hloc
    rfl

theorem look_insert
    (haside : (opened.erase (dir ++ [name])).locate cwd (ofNames rooted init) true = .ok (.node dir .directory))
    (content : Bytes) :
    (opened.insert (dir ++ [name]) (.file content false)).look cwd (ofNames rooted (init ++ [name])) false =
      .ok (dir ++ [name], .file content false) := by
  have hdir := locate_extends ((h.elsewhere content).toExtends (by simp)) haside
  have hfile : (opened.insert (dir ++ [name]) (.file content false)).get? (dir ++ [name]) =
      some (.file content false) := by
    simp
  rw [look, locate_in h.cleaned.of_append hdir h.isName, entry_of_some hfile]

end Landing

end

/-! ## The target out of the way -/

/-- What stands at the target is not the source, and a link there is on the way neither to the source nor to the
directory of the target. -/
structure ClearTarget (t : FileTree) (cwd : Place) (file target : String) : Prop where
  other : ∀ place node, t.look cwd target false = .ok (place, node) → t.look cwd file true ≠ .ok (place, node)
  passedBy : ∀ place link, t.look cwd target false = .ok (place, .link link) →
    (t.erase place).read cwd file = t.read cwd file ∧
      (t.erase place).status cwd (Path.dir target) = t.status cwd (Path.dir target)

section

variable {t opened : FileTree} {cwd dir : Place} {tag file : String} {rooted : Bool} {init : List String}
  {name : String} {content : Bytes}

theorem ClearTarget.erase (h : ClearTarget t cwd file (ofNames rooted (init ++ [name])))
    (hl : Landing t cwd tag rooted init name opened dir) (ht : t.WellFormed)
    (hcwd : t.get? cwd = some .directory) (hread : t.read cwd file = .ok content) :
    (t.erase (dir ++ [name])).read cwd file = .ok content ∧
      (opened.erase (dir ++ [name])).locate cwd (ofNames rooted init) true = .ok (.node dir .directory) := by
  cases hget : opened.get? (dir ++ [name]) with
  | none =>
    have hnone : t.get? (dir ++ [name]) = none := by
      by_contra hsome
      obtain ⟨node, hnode⟩ := Option.ne_none_iff_exists'.mp hsome
      rw [hl.isOpened.toExtends _ _ hnode] at hget
      cases hget
    rw [erase_of_get?_none hget, erase_of_get?_none hnone]
    exact ⟨hread, hl.leads⟩
  | some node =>
    obtain ⟨rfl, hlook⟩ := hl.eq_of_occupied ht hget
    cases node with
    | directory => exact absurd hget hl.notDirectory
    | file old executable =>
      -- Look-ups end at a file, and these two end elsewhere.
      obtain ⟨source, executable', hloc⟩ := read_eq_ok_iff.mp hread
      have hne : source ≠ dir ++ [name] := by
        rintro rfl
        apply h.other _ _ hlook
        rw [look, hloc]
        have hsame := (get?_of_locate ht hcwd hloc).symm.trans hget
        rw [Option.some.inj hsame]
      exact ⟨read_eq_ok_iff.mpr ⟨source, executable', locate_erase hloc (by simp) hget hne⟩,
        locate_erase hl.leads (by simp) hget (by simp)⟩
    | link target =>
      obtain ⟨hread', hstatus⟩ := h.passedBy _ _ hlook
      rw [dir_ofNames hl.cleaned, List.dropLast_concat, status_of_locate hl.leads] at hstatus
      obtain ⟨place, hloc⟩ := status_eq_ok_iff.mp hstatus
      have hback := locate_extends ((Elsewhere.refl ht hl.notDirectory).toExtends (by simp)) hloc
      rw [hl.leads, Except.ok.injEq, Target.node.injEq] at hback
      rw [← hback.1] at hloc
      exact ⟨hread'.trans hread, hloc⟩

end

/-! ## An export -/

section

variable {e : Exporter} {t t' u : FileTree} {cwd : Place} {tag tag' file input output target : String}
  {parser : Parser} {source : Bytes} {parsed : Ast.Tree}

theorem readSource_congr (h : u.read cwd file = t.read cwd file) : readSource u cwd file = readSource t cwd file := by
  rw [readSource, readSource, h]

theorem read_of_readSource (h : readSource t cwd file = .ok source) : t.read cwd file = .ok source := by
  unfold readSource at h
  split at h
  · cases h
  · rename_i bytes hread
    split at h
    · rw [hread, ← Except.ok.inj h]
    · cases h

-- An export takes nothing from the tree but its source, and leaves it as placing the artifact does.
theorem exportFile_congr (hparser : e.parser = some parser) (hread : readSource t cwd file = .ok source)
    (hread' : readSource u cwd file = .ok source) (hparse : (parser file source).outcome = .ok parsed)
    (hplace : e.place ⟨cwd, tag⟩ t file input output parsed = (.ok target, t'))
    (hplace' : e.place ⟨cwd, tag'⟩ u file input output parsed = (.ok target, t')) :
    e.exportFile ⟨cwd, tag'⟩ u file input output = e.exportFile ⟨cwd, tag⟩ t file input output := by
  have hattempt : e.attempt ⟨cwd, tag'⟩ u file input output = e.attempt ⟨cwd, tag⟩ t file input output := by
    simp only [Exporter.attempt, hparser, hread, hread', hparse, hplace, hplace']
  unfold Exporter.exportFile
  rw [hattempt, cwdPath_mk, cwdPath_mk]

theorem exists_placed_of_ok {r : Result} (h : (e.exportFile ⟨cwd, tag⟩ t file input output).result = .ok r) :
    ∃ parser source parsed, e.parser = some parser ∧ readSource t cwd file = .ok source ∧
      (parser file source).outcome = .ok parsed ∧
      outputPath (ofNames true cwd) e.naming file input output = .ok r.output ∧
      tryEncode e.indent parsed.root = .ok (encode e.indent parsed.root) ∧
      (placeFile t cwd tag r.output (encode e.indent parsed.root)).1 = .ok () ∧
      (e.exportFile ⟨cwd, tag⟩ t file input output).tree =
        (placeFile t cwd tag r.output (encode e.indent parsed.root)).2 := by
  rw [exportFile_result] at h
  rw [exportFile_tree]
  rcases attempt_cases e ⟨cwd, tag⟩ t file input output with
    ⟨f, herr, -⟩ | ⟨parser, source, parsed, target, hparser, hread, hparse, hpath, hencode, htree, hres⟩
  · rw [herr] at h
    cases h
  · rw [cwdPath_mk] at hpath
    rw [h] at hres
    dsimp only at hres htree
    cases hdone : (placeFile t cwd tag target (encode e.indent parsed.root)).1 with
    | error f =>
      rw [hdone] at hres
      cases hres
    | ok done =>
      rw [hdone] at hres
      obtain rfl : r.output = target := Except.ok.inj hres
      exact ⟨parser, source, parsed, hparser, hread, hparse, hpath, hencode, hdone, htree⟩

theorem Landing.exportFile_eq {opened : FileTree} {dir : Place} {rooted : Bool} {init : List String} {name : String}
    (h : Landing t cwd tag rooted init name opened dir) (ht : t.WellFormed) (hcwd : t.get? cwd = some .directory)
    (htag : '/' ∉ tag.toList) (hclear : ClearTarget t cwd file (ofNames rooted (init ++ [name])))
    (hparser : e.parser = some parser) (hread : readSource t cwd file = .ok source)
    (hparse : (parser file source).outcome = .ok parsed)
    (hpath : outputPath (ofNames true cwd) e.naming file input output = .ok (ofNames rooted (init ++ [name])))
    (hencode : tryEncode e.indent parsed.root = .ok (encode e.indent parsed.root))
    (hu : Elsewhere t u (dir ++ [name]) ∨ Elsewhere opened u (dir ++ [name]))
    (hserves : Serves u cwd (ofNames rooted (init ++ [name])) tag tag') :
    e.exportFile ⟨cwd, tag'⟩ u file input output = e.exportFile ⟨cwd, tag⟩ t file input output := by
  have hbytes := read_of_readSource hread
  obtain ⟨hsource, hlead⟩ := hclear.erase h ht hcwd hbytes
  have hsource' : u.read cwd file = t.read cwd file := by
    rw [hbytes]
    rcases hu with hu | hu
    · exact read_extends (hu.toExtends (by simp)) hsource
    · exact read_extends (hu.toExtends (by simp)) (read_extends (h.isOpened.toExtends.erase (by simp)) hsource)
  have htag' : '/' ∉ tag'.toList := by
    rcases hserves with rfl | hserves
    · exact htag
    · exact hserves.1
  obtain ⟨opened', hopened', h'⟩ := h.again ht hlead hu hserves
  have hplaced' := h'.placeFile_eq htag' (encode e.indent parsed.root)
  rw [hopened'.insert_eq h.isOpened.wellFormed h.isOpened.directory h.isName h.notDirectory] at hplaced'
  exact exportFile_congr hparser hread ((readSource_congr hsource').trans hread) hparse
    (place_of_path hpath hencode (h.placeFile_eq htag _)) (place_of_path hpath hencode hplaced')

end

/-- Where an export succeeds and its target is clear of its source, another export of the file does the same on the
tree that the first one left: it ends with the same result, log and ledger entry and changes nothing.  It does so, too,
on every tree that differs from the first one only in what stands at the target, as long as it is not a directory; so
both trees become the same. -/
theorem exportFile_again (e : Exporter) (cwd : Place) (tag : String) (t : FileTree) (file input output : String)
    (r : Result) (ht : t.WellFormed) (hcwd : t.get? cwd = some .directory) (htag : '/' ∉ tag.toList)
    (hok : (e.exportFile ⟨cwd, tag⟩ t file input output).result = .ok r)
    (hclear : ClearTarget t cwd file r.output) :
    (∀ tag', Serves (e.exportFile ⟨cwd, tag⟩ t file input output).tree cwd r.output tag tag' →
      e.exportFile ⟨cwd, tag'⟩ (e.exportFile ⟨cwd, tag⟩ t file input output).tree file input output =
        e.exportFile ⟨cwd, tag⟩ t file input output) ∧
    ∃ place,
      (∃ content, (e.exportFile ⟨cwd, tag⟩ t file input output).tree.look cwd r.output false =
        .ok (place, .file content false)) ∧
      (∀ place' node, t.look cwd r.output false = .ok (place', node) → place' = place) ∧
      ∀ u tag', Elsewhere t u place → Serves u cwd r.output tag tag' →
        e.exportFile ⟨cwd, tag'⟩ u file input output = e.exportFile ⟨cwd, tag⟩ t file input output := by
  obtain ⟨parser, source, parsed, hparser, hread, hparse, hpath, hencode, hplaced, htree⟩ := exists_placed_of_ok hok
  obtain ⟨p, hclean⟩ := outputPath_eq_clean hpath
  rw [hclean, clean] at hclear hpath hplaced htree ⊢
  obtain ⟨init, name, opened, dir, hns, hl⟩ := exists_landing ht hcwd htag (cleaned_cleanNames p) hplaced
  rw [hns] at hclear hpath htree ⊢
  have hagain : ∀ {u tag'}, Elsewhere t u (dir ++ [name]) ∨ Elsewhere opened u (dir ++ [name]) →
      Serves u cwd (ofNames (isAbsolute p) (init ++ [name])) tag tag' →
      e.exportFile ⟨cwd, tag'⟩ u file input output = e.exportFile ⟨cwd, tag⟩ t file input output :=
    hl.exportFile_eq ht hcwd htag hclear hparser hread hparse hpath hencode
  obtain ⟨-, hlead⟩ := hclear.erase hl ht hcwd (read_of_readSource hread)
  rw [hl.placeFile_eq htag] at htree
  rw [htree]
  exact ⟨fun tag' hserves => hagain (.inr (hl.elsewhere _)) hserves, dir ++ [name], ⟨_, hl.look_insert hlead _⟩,
    fun place' node hlook => hl.place_eq hlook, fun u tag' hu hserves => hagain (.inl hu) hserves⟩

-- The links that the exports replace are on the way to the source of the one and to the directory of the other.
def linkedTree : FileTree :=
  ⟨[(["in"], .directory), (["in", "x.sol"], .file [] false), (["out"], .directory),
    (["out", "x_ast.json"], .link "../in"), (["real"], .directory), (["real", "x_ast.json"], .link "../in"),
    (["way"], .link "real/x_ast.json/../real")]⟩

/-- The ends of two exports of a file, one after the other. -/
def endsOfTwo (t : FileTree) (file input output : String) : Except Failure String × Except Failure String :=
  let first := sampleExporter.exportFile ⟨[], "1"⟩ t file input output
  (first.result.map (·.output),
    (sampleExporter.exportFile ⟨[], "2"⟩ first.tree file input output).result.map (·.output))

theorem exportFile_again_fails_linked :
    linkedTree.WellFormed ∧
    (linkedTree.look [] "out/x_ast.json" false = .ok (["out", "x_ast.json"], .link "../in") ∧
      linkedTree.look [] "out/x_ast.json/x.sol" true = .ok (["in", "x.sol"], .file [] false) ∧
      endsOfTwo linkedTree "out/x_ast.json/x.sol" "out/x_ast.json" "out" =
        (.ok "out/x_ast.json",
          .error (.during "read source" (.base (.file ⟨"open", "out/x_ast.json/x.sol", .notDirectory⟩))))) ∧
    (linkedTree.look [] "way/x_ast.json" false = .ok (["real", "x_ast.json"], .link "../in") ∧
      linkedTree.look [] "in/x.sol" true = .ok (["in", "x.sol"], .file [] false) ∧
      endsOfTwo linkedTree "in/x.sol" "in" "way" =
        (.ok "way/x_ast.json",
          .error (.during "failed to create output directory" (.base (.file ⟨"mkdir", "way", .occupied⟩))))) := by
  decide +kernel

-- A link to the source stands at the target, but is not on the way to it.
def pointedTree : FileTree :=
  ⟨[(["in"], .directory), (["in", "A.sol"], .file [] false), (["out"], .directory),
    (["out", "A_ast.json"], .link "../in/A.sol")]⟩

theorem look_pointedTree :
    pointedTree.look [] "out/A_ast.json" false = .ok (["out", "A_ast.json"], .link "../in/A.sol") := by
  decide

theorem clearTarget_pointedTree : ClearTarget pointedTree [] "in/A.sol" "out/A_ast.json" := by
  have hsource : pointedTree.look [] "in/A.sol" true = .ok (["in", "A.sol"], .file [] false) := by
    decide
  constructor
  · intro place node hlook hsame
    rw [look_pointedTree, Except.ok.injEq, Prod.mk.injEq] at hlook
    rw [hsource, Except.ok.injEq, Prod.mk.injEq, ← hlook.1] at hsame
    exact absurd hsame.1 (by decide)
  · intro place link hlook
    rw [look_pointedTree] at hlook
    cases hlook
    decide

-- Instead of the link there may be an old artifact.
def staleTree : FileTree := pointedTree.insert ["out", "A_ast.json"] (.file [65] true)

theorem elsewhere_staleTree : Elsewhere pointedTree staleTree ["out", "A_ast.json"] :=
  have hinsert : Elsewhere pointedTree (pointedTree.insert (["out"] ++ ["A_ast.json"]) (.file [65] true))
      (["out"] ++ ["A_ast.json"]) :=
    Elsewhere.insert (by decide) (by decide) (by decide) (by decide) (by decide)
  hinsert

theorem exportFile_again_pointedTree :
    ClearTarget pointedTree [] "in/A.sol" "out/A_ast.json" ∧
    sampleExporter.exportFile ⟨[], "2"⟩ (sampleExporter.exportFile ⟨[], "1"⟩ pointedTree "in/A.sol" "in" "out").tree
        "in/A.sol" "in" "out" =
      sampleExporter.exportFile ⟨[], "1"⟩ pointedTree "in/A.sol" "in" "out" ∧
    sampleExporter.exportFile ⟨[], "2"⟩ staleTree "in/A.sol" "in" "out" =
      sampleExporter.exportFile ⟨[], "1"⟩ pointedTree "in/A.sol" "in" "out" := by
  have hpath : (sampleExporter.exportFile ⟨[], "1"⟩ pointedTree "in/A.sol" "in" "out").result.map (·.output) =
      .ok "out/A_ast.json" := by decide
  cases hres : (sampleExporter.exportFile ⟨[], "1"⟩ pointedTree "in/A.sol" "in" "out").result with
  | error f =>
    rw [hres] at hpath
    cases hpath
  | ok r =>
    rw [hres] at hpath
    have hout : r.output = "out/A_ast.json" := Except.ok.inj hpath
    have hclear : ClearTarget pointedTree [] "in/A.sol" r.output := by
      rw [hout]
      exact clearTarget_pointedTree
    obtain ⟨hagain, place, -, hplace, hstale⟩ := exportFile_again sampleExporter [] "1" pointedTree "in/A.sol" "in"
      "out" r (by decide) rfl (by decide) hres hclear
    rw [hout] at hagain hplace hstale
    obtain rfl := hplace _ _ look_pointedTree
    exact ⟨clearTarget_pointedTree, hagain "2" (.inr ⟨by decide, unused_of_look .noEntry (by decide)⟩),
      hstale staleTree "2" elsewhere_staleTree (.inr ⟨by decide, unused_of_look .noEntry (by decide)⟩)⟩

end SolidityAst.Export
