import SolidityAst.Proofs.Batch.Ownership
import SolidityAst.Proofs.Batch.Schedule
import SolidityAst.Proofs.Cli.Causes

/-!
What is found below a directory lies below it for the exporter as well.

A search joins names to the directory as it is spelled, and the output path is worked out from absolute paths.  Both
come to the same: the names by which a file was reached are what its absolute path has more than that of the
directory, however the directory is spelled and whatever the names are.
-/
namespace SolidityAst.Batch

open Export FileTree SolidityAst.Path

section

variable {t : FileTree} {cwd : Place} {root : String} {extensions exclude files : List String}

/-- Every file that is found was reached by exactly one list of names. -/
theorem exists_reached (ht : t.WellFormed)
    (h : discover t cwd root extensions exclude = .ok files) {file : String} (hf : file ∈ files) :
    ∃ d b, (∀ n ∈ d ++ [b], IsName n) ∧
      file = ofNames (isAbsolute root) (cleanNames root ++ (d ++ [b])) ∧
      ∀ names, (∃ node, Met t cwd root exclude names node ∧ walked root names = file) ↔ names = d ++ [b] := by
  obtain ⟨names, node, hmet, hwanted, rfl⟩ := (mem_discover ht h file).mp hf
  obtain ⟨d, b, rfl⟩ := (List.eq_nil_or_concat' names).resolve_left hwanted.ne_nil
  have hnames := hmet.isName ht
  refine ⟨d, b, hnames, walked_eq_ofNames root (by simp) hnames, fun names' => ⟨?_, ?_⟩⟩
  · rintro ⟨node', hmet', hwalked⟩
    exact (walked_inj (hmet'.isName ht) hnames).mp hwalked
  · rintro rfl
    exact ⟨node, hmet, rfl⟩

/-! ## Batches of the program -/

-- What ended in a log ended so from some state of the run.
theorem Carried.exists_export {σ : Type} {exports : Exports σ} {state s : σ} {log : List Ending}
    (h : Carried exports state log s) {e : Ending} (he : e ∈ log) :
    ∃ s' done, exports s' e.1 done ∧ done.outcome = e.2 := by
  induction h with
  | nil => cases he
  | @snoc log s file done _ hdone ih =>
    rcases List.mem_append.mp he with hbefore | hlast
    · exact ih hbefore
    · rw [List.mem_singleton.mp hlast]
      exact ⟨s, done, hdone, rfl⟩

/-- A file that has an output path under the naming of the program is not reported to lie outside. -/
theorem inside_of_ends {j : Cli.Job} {r : Runner} {output : String} {session : Cli.Session}
    {p : Pool Cli.Session} {done : Finished Cli.Session}
    (htarget : ∀ file ∈ files, ∃ target, outputPath (Site.cwdPath ⟨j.machine.cwd, j.tag⟩)
      ⟨j.settings.output.extension, j.settings.output.suffix⟩ file root output = .ok target)
    (hends : Ends r (Pool.byFunction (j.exporting root output)) root session files p done) :
    ∃ s, done.summary = some s ∧ ∀ failed ∈ s.failed, failed.path ∈ files ∧ failed.failure.Inside := by
  obtain ⟨endings, hsettled⟩ := hends.settled
  obtain ⟨-, s, hsummary, -, -, hfailed⟩ := hends.result
  refine ⟨s, hsummary, ?_⟩
  rintro ⟨file, f⟩ hmem
  have hperm : s.failed.Perm p.course.summary.failed := by
    rw [hfailed]
    exact List.mergeSort_perm _ _
  have hreturned : (file, .error f) ∈ p.returned := hsettled.mem_failed_iff.mp (hperm.mem_iff.mp hmem)
  have hfile : file ∈ files := hsettled.called_subset (hsettled.mem_called_iff.mpr ⟨_, hreturned⟩)
  obtain ⟨session', exported, hexported, houtcome⟩ := hends.carried.2.exists_export hreturned
  obtain ⟨target, hpath⟩ := htarget file hfile
  refine ⟨hfile, ?_⟩
  rw [hexported] at houtcome
  exact Cli.Job.inside_of_exporting hpath houtcome

theorem exists_outputPath {cwdPath : String} (n : Naming) (output : String) (hcwd : isAbsolute cwdPath = true)
    {names : List String} (hnames : ∀ m ∈ names, IsName m) :
    ∃ target, outputPath cwdPath n (ofNames (isAbsolute root) (cleanNames root ++ names)) root output =
      .ok target :=
  ⟨_, outputPath_of_inside n output hcwd (components_ofNames_append hcwd hnames)⟩

/-- Every file that a search finds has its output path, seen from any directory: the names by which it was reached,
below the output directory and with the last one changed.  So no batch of the program, whatever its naming, its
workers and its cancellation, reports a file that it found to lie outside the input directory. -/
theorem discovered_never_outside (ht : t.WellFormed)
    (hfiles : discover t cwd root extensions exclude = .ok files) {cwdPath : String}
    (hcwd : isAbsolute cwdPath = true) (output : String) :
    (∃ place, t.look cwd root false = .ok (place, .directory) ∧
      ∀ file ∈ files, ∃ d b,
        (∀ names, (∃ node, Met t cwd root exclude names node ∧ walked root names = file) ↔ names = d ++ [b]) ∧
        outputPath cwdPath .default file root output =
          .ok (join (output :: (d ++ [Naming.default.stem b ++ "_ast.json"])))) ∧
    ∀ (j : Cli.Job) (r : Runner) (session : Cli.Session) p done,
      Ends r (Pool.byFunction (j.exporting root output)) root session files p done →
        ∃ s, done.summary = some s ∧
          ∀ failed ∈ s.failed, failed.path ∈ files ∧ failed.failure.cause ≠ .outsideInput := by
  obtain ⟨⟨place, hroot⟩, -⟩ := discover_eq_ok ht hfiles
  constructor
  · refine ⟨place, hroot, fun file hf => ?_⟩
    obtain ⟨d, b, hnames, rfl, hreached⟩ := exists_reached ht hfiles hf
    refine ⟨d, b, hreached, ?_⟩
    obtain ⟨hartifact, hpath⟩ := outputPath_below .default root output hcwd (by decide)
      ⟨'_', by decide, by decide⟩ hnames
    rw [hpath, ← join_names output (by simp) hartifact]
    rfl
  · intro j r session p done hends
    apply inside_of_ends _ hends
    intro file hf
    obtain ⟨d, b, hnames, rfl, -⟩ := exists_reached ht hfiles hf
    exact exists_outputPath _ output (isAbsolute_slash _) hnames

end

-- Names that begin with dots, below a directory in a roundabout spelling.
def dotsTree : FileTree :=
  ⟨[(["in"], .directory), (["in", "..d"], .directory), (["in", "..d", ".A.sol"], .file [] false)]⟩

theorem discover_dotsTree :
    discover dotsTree [] "./in/..d/..//" [".sol"] [] = .ok ["in/..d/.A.sol"] := by
  have hfound : gather dotsTree [] "./in/..d/..//" [".sol"] [] = .ok ["in/..d/.A.sol"] := by decide
  rw [discover_of_gather hfound, List.mergeSort_singleton]

theorem met_dotsTree : Met dotsTree [] "./in/..d/..//" [] ["..d", ".A.sol"] (.file [] false) := by
  have hlook : dotsTree.look [] (walked "./in/..d/..//" []) true = .ok (["in"], .directory) := by decide
  have hlook' : dotsTree.look [] (walked "./in/..d/..//" ["..d"]) true = .ok (["in", "..d"], .directory) := by
    decide
  have htop : Met dotsTree [] "./in/..d/..//" [] ["..d"] .directory :=
    .single (.entry (by decide) hlook (by decide))
  exact htop.tail (.entry (by decide) hlook' (by decide))

-- A machine with no programs, so that the file fails for want of a compiler.
def bareJob : Cli.Job := ⟨⟨[], [], fun _ => none⟩, "1", .default, ⟨0⟩, fun _ => .ok ()⟩

theorem discovered_never_outside_dots :
    outputPath "/w" .default "in/..d/.A.sol" "./in/..d/..//" "../out" = .ok "../out/..d/.A_ast.json" ∧
      ∃ s, ((Runner.new 2).run (some (bareJob.exporting "./in/..d/..//" "../out")) .never
          ⟨dotsTree, bareJob.toolchain⟩ dotsTree [] "./in/..d/..//").summary = some s ∧
        ∀ failed ∈ s.failed, failed.path ∈ ["in/..d/.A.sol"] ∧ failed.failure.cause ≠ .outsideInput := by
  have hmain := discovered_never_outside (by decide : dotsTree.WellFormed) discover_dotsTree
    (by decide : isAbsolute "/w" = true) "../out"
  obtain ⟨place, -, hfiles⟩ := hmain.1
  obtain ⟨d, b, hreached, hpath⟩ := hfiles _ List.mem_cons_self
  have hnames : ["..d"] ++ [".A.sol"] = d ++ [b] := (hreached _).mp ⟨_, met_dotsTree, by decide⟩
  obtain ⟨rfl, rfl⟩ := List.append_singleton_inj.mp hnames
  obtain ⟨p, -, hends⟩ := run_ends (by decide : 0 < (Runner.new 2).concurrency) discover_dotsTree
    (bareJob.exporting "./in/..d/..//" "../out") .never ⟨dotsTree, bareJob.toolchain⟩
  exact ⟨hpath.trans (by decide), hmain.2 _ _ _ p _ hends⟩

end SolidityAst.Batch
