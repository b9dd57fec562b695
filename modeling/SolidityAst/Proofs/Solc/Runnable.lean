import Mathlib.Data.List.Induction
import SolidityAst.Proofs.Solc.Transparency

/-!
Whether a path that is given out can be run.

A search finds executable files only.  A remembered path is given out again as long as there is something at it, be it a
directory or a file that may no longer be executed.  So what is given out can be run unless the version is remembered at
such a path, and then it could be run when an earlier question found it.
-/
namespace SolidityAst

namespace FileTree

/-- A path leads to a file that may be executed. -/
def Runnable (t : FileTree) (cwd : Place) (path : String) : Prop :=
  ∃ content, t.status cwd path = .ok (.file content true)

variable {t : FileTree} {cwd : Place} {path : String}

theorem runnable_iff : t.Runnable cwd path ↔ t.isExecutable cwd path = true := by
  unfold Runnable isExecutable
  cases t.status cwd path with
  | error e => simp
  | ok node => cases node <;> simp

instance (t : FileTree) (cwd : Place) (path : String) : Decidable (t.Runnable cwd path) :=
  decidable_of_iff _ runnable_iff.symm

theorem Runnable.isThere (h : t.Runnable cwd path) : t.isThere cwd path = true := by
  obtain ⟨content, hstatus⟩ := h
  rewrite [FileTree.isThere, hstatus]
  rfl

end FileTree

namespace Solc

section

variable {tc : Toolchain} {s : Surroundings} {t : FileTree} {v w path : String} {a : Answer String}

theorem runnable_of_findInstalled? (h : s.findInstalled? t v = some path) : t.Runnable s.cwd path := by
  obtain ⟨home, -, hfind⟩ := Option.bind_eq_some_iff.mp h
  exact FileTree.runnable_iff.mpr (List.find?_some hfind)

theorem isThere_of_cached? (h : tc.cached? s t v = some path) : t.isThere s.cwd path = true :=
  (Option.filter_eq_some_iff.mp h).2

/-! ## One question -/

/-- The path of a version is the one that is remembered, as it stands, or one that a search has found just now. -/
theorem Located.outcome_cases (h : Located tc s t v a) (hok : a.outcome = .ok path) :
    (tc.cached? s t v = some path ∧ a.tree = t) ∨
      (tc.cached? s t v = none ∧ a.tree.Runnable s.cwd path) := by
  cases h with
  | unnamed | refused | triedBefore | failed | vanished => cases hok
  | remembered _ hcached =>
    obtain rfl := Except.ok.inj hok
    exact .inl ⟨hcached, rfl⟩
  | found _ huncached hfound =>
    obtain rfl := Except.ok.inj hok
    exact .inr ⟨huncached, runnable_of_findInstalled? hfound⟩
  | installed hmissing _ _ _ hafter =>
    obtain rfl := Except.ok.inj hok
    exact .inr ⟨hmissing.uncached, runnable_of_findInstalled? hafter⟩

@[simp] theorem find?_remember (tc : Toolchain) (v w path : String) :
    Assoc.find? w (tc.remember v path).cache = if w = v then some path else Assoc.find? w tc.cache := by
  simp [Toolchain.remember]

/-- What is remembered after a question was remembered before it, or can be run when the question is answered. -/
theorem Located.cache_cases (h : Located tc s t v a) (hfind : Assoc.find? w a.toolchain.cache = some path) :
    Assoc.find? w tc.cache = some path ∨ (w = v ∧ a.tree.Runnable s.cwd path) := by
  cases h with
  | unnamed | remembered | refused | triedBefore | failed | vanished => exact .inl hfind
  | found _ _ hfound =>
    rw [find?_remember] at hfind
    split at hfind
    · rename_i heq
      obtain rfl := Option.some.inj hfind
      exact .inr ⟨heq, runnable_of_findInstalled? hfound⟩
    · exact .inl hfind
  | installed _ _ _ _ hafter =>
    rw [find?_remember] at hfind
    split at hfind
    · rename_i heq
      obtain rfl := Option.some.inj hfind
      exact .inr ⟨heq, runnable_of_findInstalled? hafter⟩
    · exact .inl hfind

/-! ## Sessions -/

theorem Turn.cache_cases (turn : Turn) (hfind : Assoc.find? w (turn.answer tc).toolchain.cache = some path) :
    Assoc.find? w tc.cache = some path ∨
      (w = Version.normalize (turn.question.wanted tc.options) ∧
        (turn.answer tc).tree.Runnable turn.surroundings.cwd path) := by
  obtain ⟨s, t, question⟩ := turn
  cases question with
  | pathOf version =>
    rw [Turn.answer, Answer.map_toolchain] at hfind
    rw [Turn.answer, Answer.map_tree]
    dsimp only at hfind ⊢
    have hlocated := located_pathOf tc s t version
    generalize tc.pathOf s t version = a at *
    exact hlocated.cache_cases hfind
  | resolve source =>
    rw [Turn.answer, Answer.map_toolchain] at hfind
    rw [Turn.answer, Answer.map_tree]
    dsimp only at hfind ⊢
    by_cases hpath : tc.options.path = ""
    · obtain ⟨htoolchain, htree, -, -⟩ := resolve_of_no_path s t source hpath
      rw [htoolchain] at hfind
      rw [htree]
      have hlocated := located_pathOf tc s t (tc.wanted source)
      generalize tc.pathOf s t (tc.wanted source) = a at *
      exact hlocated.cache_cases hfind
    · rw [(resolve_of_path s t source hpath).1] at hfind
      exact .inl hfind

/-- A question of the session was about the version, and when it was answered the path could be run. -/
def WasRunnable (options : Options) (turns : List Turn) (v path : String) : Prop :=
  ∃ before turn rest, turns = before ++ turn :: rest ∧ Version.normalize (turn.question.wanted options) = v ∧
    (turn.answer ((Toolchain.new options).after before)).tree.Runnable turn.surroundings.cwd path

theorem WasRunnable.append {options : Options} {turns : List Turn} (h : WasRunnable options turns v path)
    (later : List Turn) : WasRunnable options (turns ++ later) v path := by
  obtain ⟨before, turn, rest, rfl, hversion, hrunnable⟩ := h
  exact ⟨before, turn, rest ++ later, by simp, hversion, hrunnable⟩

theorem wasRunnable_of_cache {options : Options} {turns : List Turn}
    (h : Assoc.find? v ((Toolchain.new options).after turns).cache = some path) :
    WasRunnable options turns v path := by
  -- The induction takes turns off the end: the last one remembers the path, or it was remembered before.
  induction turns using List.reverseRecOn with
  | nil => cases h
  | append_singleton turns turn ih =>
    rw [after_append] at h
    rcases turn.cache_cases h with hbefore | ⟨hv, hrunnable⟩
    · exact (ih hbefore).append [turn]
    · rw [after_options] at hv
      exact ⟨turns, turn, [], rfl, hv.symm, hrunnable⟩

end

/-- After any session, and whatever became of the files since, there is something at a path that is given out.  It can
be run exactly when it is not so that the version is remembered at a path where there still is something that cannot be
run.  Otherwise it is the remembered path, and it could be run when an earlier question for the version was answered. -/
theorem pathOf_runnable_iff (options : Options) (turns : List Turn) (s : Surroundings) (t : FileTree)
    (version path : String)
    (hok : (((Toolchain.new options).after turns).pathOf s t version).outcome = .ok path) :
    (((Toolchain.new options).after turns).pathOf s t version).tree.isThere s.cwd path = true ∧
    ((((Toolchain.new options).after turns).pathOf s t version).tree.Runnable s.cwd path ↔
      ¬ ∃ old, Assoc.find? (Version.normalize version) ((Toolchain.new options).after turns).cache = some old ∧
        t.isThere s.cwd old = true ∧ ¬ t.Runnable s.cwd old) ∧
    (¬ (((Toolchain.new options).after turns).pathOf s t version).tree.Runnable s.cwd path →
      Assoc.find? (Version.normalize version) ((Toolchain.new options).after turns).cache = some path ∧
        WasRunnable options turns (Version.normalize version) path) := by
  have hlocated := located_pathOf ((Toolchain.new options).after turns) s t version
  have hseen : ∀ {old},
      Assoc.find? (Version.normalize version) ((Toolchain.new options).after turns).cache = some old →
        WasRunnable options turns (Version.normalize version) old := wasRunnable_of_cache
  generalize (Toolchain.new options).after turns = tc at *
  generalize tc.pathOf s t version = a at *
  rcases hlocated.outcome_cases hok with ⟨hcached, htree⟩ | ⟨huncached, hrunnable⟩
  · have hfind := find?_of_cached? hcached
    have hthere := isThere_of_cached? hcached
    rw [htree]
    refine ⟨hthere, ⟨?_, fun hnot => ?_⟩, fun _ => ⟨hfind, hseen hfind⟩⟩
    · rintro hrunnable ⟨old, hold, -, hstale⟩
      obtain rfl := Option.some.inj (hfind.symm.trans hold)
      exact hstale hrunnable
    · by_contra hstale
      exact hnot ⟨path, hfind, hthere, hstale⟩
  · refine ⟨hrunnable.isThere, ⟨?_, fun _ => hrunnable⟩, fun hstale => absurd hrunnable hstale⟩
    rintro - ⟨old, hold, hthere, -⟩
    exact Option.filter_eq_none_iff.mp huncached old hold hthere

-- The compiler was found and remembered, and a directory is at its place now.
def firstFound : List Turn := [⟨quietHome, compilerTree true, .pathOf "v0.8.26"⟩]

def replacedTree : FileTree := (compilerTree true).insert ["h", ".solcx", "solc-v0.8.26"] .directory

theorem pathOf_gives_directory :
    (((Toolchain.new ⟨"", "", false⟩).after firstFound).pathOf quietHome replacedTree "0.8.26").outcome =
        .ok "/h/.solcx/solc-v0.8.26" ∧
      ¬ (((Toolchain.new ⟨"", "", false⟩).after firstFound).pathOf quietHome replacedTree "0.8.26").tree.Runnable
        quietHome.cwd "/h/.solcx/solc-v0.8.26" := by
  decide +kernel

theorem pathOf_runnable_iff_bitDropped :
    ∃ path, (((Toolchain.new ⟨"", "", false⟩).after firstFound).pathOf quietHome (compilerTree false)
        "0.8.26").outcome = .ok path ∧
      (compilerTree false).isThere [] path = true ∧ WasRunnable ⟨"", "", false⟩ firstFound "0.8.26" path := by
  have hok : (((Toolchain.new ⟨"", "", false⟩).after firstFound).pathOf quietHome (compilerTree false)
      "0.8.26").outcome = .ok "/h/.solcx/solc-v0.8.26" := by decide +kernel
  have hstale : ¬ (((Toolchain.new ⟨"", "", false⟩).after firstFound).pathOf quietHome (compilerTree false)
      "0.8.26").tree.Runnable [] "/h/.solcx/solc-v0.8.26" := by decide +kernel
  have hversion : Version.normalize "0.8.26" = "0.8.26" := by decide
  have hthere : (compilerTree false).isThere [] "/h/.solcx/solc-v0.8.26" = true := by decide +kernel
  have hseen := ((pathOf_runnable_iff _ _ _ _ _ _ hok).2.2 hstale).2
  rw [hversion] at hseen
  exact ⟨_, hok, hthere, hseen⟩

end Solc

end SolidityAst
