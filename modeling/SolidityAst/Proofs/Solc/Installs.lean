import SolidityAst.Proofs.Solc.Session

/-!
Installations in a session.

A turn calls the installer at most once, and only for a version whose installation was not tried before.  The
outcome is noted and the note is never changed, so over a whole session no version is installed twice, and a
failure is told again for as long as nothing of the version is found.
-/
namespace SolidityAst.Solc

open Console

section

variable {tc : Toolchain} {s : Surroundings} {t : FileTree} {v : String} {a : Answer String}

@[simp] theorem find?_tried (tc : Toolchain) (v w : String) (outcome : Except Failure Unit) :
    Assoc.find? w (tc.tried v outcome).installs =
      if w = v then some outcome else Assoc.find? w tc.installs := by
  simp [Toolchain.tried]

theorem not_isExecutable_of_findInstalled? {home : String} (hs : s.home = some home)
    (h : s.findInstalled? t v = none) :
    ∀ path ∈ candidatePaths home v, t.isExecutable s.cwd path = false := by
  intro path hpath
  rw [Surroundings.findInstalled?, hs] at h
  exact Bool.eq_false_iff.mpr (List.find?_eq_none.mp h path hpath)

/-! ## One question -/

/-- The installer is called for a version that is missing and was not tried; what comes of it is noted. -/
structure Called (tc : Toolchain) (s : Surroundings) (t : FileTree) (v : String) (tc' : Toolchain) : Prop where
  missing : Missing tc s t v
  allowed : tc.options.autoInstall = true
  untried : Assoc.find? v tc.installs = none
  noted : tc'.installs = (tc.tried v (s.install v t).1).installs

/-- One question calls the installer once, or not at all and then the notes stay as they are. -/
theorem Located.calls_cases (h : Located tc s t v a) :
    (a.calls = [] ∧ a.toolchain.installs = tc.installs) ∨
      (a.calls = [(v, t)] ∧ Called tc s t v a.toolchain) := by
  cases h with
  | unnamed | remembered | found | refused | triedBefore => exact .inl ⟨rfl, rfl⟩
  | failed hmissing hauto huntried hinstall =>
    exact .inr ⟨rfl, hmissing, hauto, huntried, by rw [hinstall]⟩
  | installed hmissing hauto huntried hinstall =>
    refine .inr ⟨rfl, hmissing, hauto, huntried, ?_⟩
    rewrite [hinstall]
    rfl
  | vanished _ hmissing hauto huntried hinstall =>
    exact .inr ⟨rfl, hmissing, hauto, huntried, by rw [hinstall]⟩

-- Of the ways to locate a version, only the one that tells an old failure is left.
theorem Located.tells_failure (h : Located tc s t v a) (hmissing : Missing tc s t v)
    (hauto : tc.options.autoInstall = true) {e : Failure}
    (hnoted : Assoc.find? v tc.installs = some (.error e)) : a.outcome = .error e := by
  cases h with
  | unnamed _ hempty => exact absurd hempty hmissing.named
  | remembered _ hcached =>
    rw [hmissing.uncached] at hcached
    cases hcached
  | found _ _ hfound =>
    rw [hmissing.notFound] at hfound
    cases hfound
  | refused _ _ hoff =>
    rw [hauto] at hoff
    cases hoff
  | triedBefore _ _ hbefore hcause =>
    obtain rfl := Option.some.inj (hnoted.symm.trans hbefore)
    rcases hcause with hok | herror
    · cases hok
    · rw [Except.error.inj herror]
  | failed _ _ huntried | installed _ _ huntried | vanished _ _ _ huntried =>
    rw [hnoted] at huntried
    cases huntried

/-! ## Turns -/

/-- A turn calls the installer once, for its own version and from its own tree, or not at all. -/
theorem Turn.calls_cases (turn : Turn) (tc : Toolchain) :
    ((turn.answer tc).calls = [] ∧ (turn.answer tc).toolchain.installs = tc.installs) ∨
    ∃ v, v = Version.normalize (turn.question.wanted tc.options) ∧
      (turn.answer tc).calls = [(v, turn.tree)] ∧
      Called tc turn.surroundings turn.tree v (turn.answer tc).toolchain := by
  rcases turn.answer_cases tc with ⟨htoolchain, hcalls⟩ | ⟨a, hlocated, htoolchain, hcalls⟩
  · exact .inl ⟨hcalls, by rw [htoolchain]⟩
  · rw [htoolchain, hcalls]
    rcases hlocated.calls_cases with hnone | ⟨hone, hcalled⟩
    · exact .inl hnone
    · exact .inr ⟨_, rfl, hone, hcalled⟩

theorem Turn.called_of_mem {turn : Turn} {call : String × FileTree} (h : call ∈ (turn.answer tc).calls) :
    call = (Version.normalize (turn.question.wanted tc.options), turn.tree) ∧
      Called tc turn.surroundings turn.tree call.1 (turn.answer tc).toolchain := by
  rcases turn.calls_cases tc with ⟨hnone, -⟩ | ⟨v, rfl, hone, hcalled⟩
  · rw [hnone] at h
    cases h
  · rw [hone] at h
    obtain rfl := List.mem_singleton.mp h
    exact ⟨rfl, hcalled⟩

-- A note is never changed.
theorem Turn.note_kept (turn : Turn) {outcome : Except Failure Unit}
    (h : Assoc.find? v tc.installs = some outcome) :
    Assoc.find? v (turn.answer tc).toolchain.installs = some outcome := by
  rcases turn.calls_cases tc with ⟨-, hsame⟩ | ⟨w, -, -, hcalled⟩
  · rw [hsame]
    exact h
  · have hne : v ≠ w := by
      rintro rfl
      rw [hcalled.untried] at h
      cases h
    simpa [hcalled.noted, hne] using h

theorem Turn.note_of_call {turn : Turn} {call : String × FileTree} (h : call ∈ (turn.answer tc).calls) :
    Assoc.find? call.1 (turn.answer tc).toolchain.installs =
      some (turn.surroundings.install call.1 call.2).1 := by
  obtain ⟨hcall, hcalled⟩ := Turn.called_of_mem h
  have htree : call.2 = turn.tree := congrArg Prod.snd hcall
  simp [hcalled.noted, htree]

/-! ## Sessions -/

theorem note_kept_after {outcome : Except Failure Unit} (turns : List Turn)
    (h : Assoc.find? v tc.installs = some outcome) :
    Assoc.find? v (tc.after turns).installs = some outcome :=
  after_induction (P := fun tc' => Assoc.find? v tc'.installs = some outcome) h
    fun turn _ _ h' => turn.note_kept h'

-- What a session installs was not noted before it.
theorem untried_of_mem_callsIn {turns : List Turn} {call : String × FileTree} (h : call ∈ tc.callsIn turns) :
    Assoc.find? call.1 tc.installs = none := by
  induction turns generalizing tc with
  | nil => cases h
  | cons turn turns ih =>
    rw [Toolchain.callsIn, List.mem_append] at h
    rcases h with hnow | hlater
    · exact (Turn.called_of_mem hnow).2.untried
    · have hafter := ih hlater
      by_contra hnoted
      obtain ⟨outcome, houtcome⟩ := Option.ne_none_iff_exists'.mp hnoted
      rw [turn.note_kept houtcome] at hafter
      cases hafter

theorem nodup_callsIn (tc : Toolchain) (turns : List Turn) : ((tc.callsIn turns).map Prod.fst).Nodup := by
  induction turns generalizing tc with
  | nil => exact List.nodup_nil
  | cons turn turns ih =>
    rw [Toolchain.callsIn, List.map_append, List.nodup_append]
    refine ⟨?_, ih _, ?_⟩
    · rcases turn.calls_cases tc with ⟨hnone, -⟩ | ⟨v, -, hone, -⟩
      · rw [hnone]
        exact List.nodup_nil
      · rw [hone]
        exact List.nodup_singleton v
    · -- A version of this turn is noted from now on, and what is noted is not installed later.
      intro v hv w hw
      rintro rfl
      obtain ⟨call, hcall, rfl⟩ := List.mem_map.mp hv
      obtain ⟨call', hcall', hsame⟩ := List.mem_map.mp hw
      have huntried := untried_of_mem_callsIn hcall'
      rw [hsame, Turn.note_of_call hcall] at huntried
      cases huntried

theorem callsIn_of_not_autoInstall (tc : Toolchain) (turns : List Turn)
    (h : tc.options.autoInstall = false) : tc.callsIn turns = [] := by
  induction turns generalizing tc with
  | nil => rfl
  | cons turn turns ih =>
    rw [Toolchain.callsIn, ih _ (by rw [turn.options_eq]; exact h), List.append_nil]
    rcases turn.calls_cases tc with ⟨hnone, -⟩ | ⟨v, -, -, hcalled⟩
    · exact hnone
    · rw [hcalled.allowed] at h
      cases h

/-! ## What the installer is seen through -/

-- The surroundings with another installer.
def Surroundings.withInstaller (s : Surroundings) (install : Installer) : Surroundings :=
  { s with install := install }

theorem installOnce_congr {install : Installer}
    (h : ∀ call ∈ (tc.installOnce s t v).calls, install call.1 call.2 = s.install call.1 call.2) :
    tc.installOnce (s.withInstaller install) t v = tc.installOnce s t v := by
  cases htried : Assoc.find? v tc.installs with
  | some outcome => rw [installOnce_of_tried htried, installOnce_of_tried htried]
  | none =>
    obtain ⟨outcome, t', events, hinstall⟩ :
        ∃ outcome t' events, s.install v t = (outcome, t', events) := ⟨_, _, _, rfl⟩
    rw [installOnce_of_not_tried htried hinstall] at h ⊢
    exact installOnce_of_not_tried htried ((h (v, t) List.mem_cons_self).trans hinstall)

theorem pathOf_congr {install : Installer} {version : String}
    (h : ∀ call ∈ (tc.pathOf s t version).calls, install call.1 call.2 = s.install call.1 call.2) :
    tc.pathOf (s.withInstaller install) t version = tc.pathOf s t version := by
  -- The files are looked at in the same way, whoever installs.
  have hcached : ∀ v, tc.cached? (s.withInstaller install) t v = tc.cached? s t v := fun _ => rfl
  have hfound : ∀ t' v, (s.withInstaller install).findInstalled? t' v = s.findInstalled? t' v :=
    fun _ _ => rfl
  unfold Toolchain.pathOf at h ⊢
  dsimp only at h ⊢
  generalize Version.normalize version = v at h ⊢
  simp only [hcached, hfound]
  by_cases hnamed : v = ""
  · rw [if_pos hnamed, if_pos hnamed]
  rw [if_neg hnamed] at h
  rw [if_neg hnamed, if_neg hnamed]
  cases hpath : tc.cached? s t v with
  | some path => rfl
  | none =>
  rw [hpath] at h
  cases hinstalled : s.findInstalled? t v with
  | some path => rfl
  | none =>
  rw [hinstalled] at h
  dsimp only at h ⊢
  cases hauto : tc.options.autoInstall with
  | false => rfl
  | true =>
  rw [hauto, if_neg (by simp)] at h
  have hsame : tc.installOnce (s.withInstaller install) t v = tc.installOnce s t v := by
    apply installOnce_congr
    intro call hcall
    apply h
    split
    · exact hcall
    · split
      · exact hcall
      · exact hcall
  rw [hsame]

theorem resolve_congr {install : Installer} {source : Bytes}
    (h : ∀ call ∈ (tc.resolve s t source).calls, install call.1 call.2 = s.install call.1 call.2) :
    tc.resolve (s.withInstaller install) t source = tc.resolve s t source := by
  have hcwd : (s.withInstaller install).cwd = s.cwd := rfl
  have hfallback : ∀ t' version,
      Toolchain.fallback (s.withInstaller install) t' version = Toolchain.fallback s t' version :=
    fun _ _ => rfl
  by_cases hpath : tc.options.path = ""
  · rw [(resolve_of_no_path s t source hpath).2.2.1] at h
    unfold Toolchain.resolve
    dsimp only
    rw [pathOf_congr h]
    simp only [hcwd, hfallback]
  · unfold Toolchain.resolve
    dsimp only
    rw [if_pos hpath, if_pos hpath, hcwd]

/-- All that an answer shows of the installer is what came of the calls that are listed. -/
theorem Turn.answer_congr (turn : Turn) {install : Installer}
    (h : ∀ call ∈ (turn.answer tc).calls, install call.1 call.2 = turn.surroundings.install call.1 call.2) :
    Turn.answer ⟨turn.surroundings.withInstaller install, turn.tree, turn.question⟩ tc = turn.answer tc := by
  obtain ⟨s, t, question⟩ := turn
  cases question with
  | pathOf version =>
    rw [Turn.answer, Answer.map_calls] at h
    rw [Turn.answer, Turn.answer]
    dsimp only at h ⊢
    rw [pathOf_congr h]
  | resolve source =>
    rw [Turn.answer, Answer.map_calls] at h
    rw [Turn.answer, Turn.answer]
    dsimp only at h ⊢
    rw [resolve_congr h]

end

/-- In a session with any questions, between which anything may change, the installer is called at most once for
each version, never unless that is allowed, never for a source when a path is configured, and only while no place
of the version holds a file that can be executed.  After an installation has failed, every question for that
version, however it is spelled, that finds it neither remembered nor installed is answered with the same failure.
The installer has no part in an answer but by the calls that are listed. -/
theorem install_once_per_version (options : Options) (turns : List Turn) :
    let start := Toolchain.new options
    ((start.callsIn turns).map Prod.fst).Nodup ∧
    (options.autoInstall = false → start.callsIn turns = []) ∧
    ∀ before turn later, turns = before ++ turn :: later →
      (options.path ≠ "" → ∀ source, turn.question = .resolve source →
        (turn.answer (start.after before)).calls = []) ∧
      (∀ v t, (v, t) ∈ (turn.answer (start.after before)).calls →
        v = Version.normalize (turn.question.wanted options) ∧ t = turn.tree ∧
        (∀ home, turn.surroundings.home = some home →
          ∀ path ∈ candidatePaths home v, t.isExecutable turn.surroundings.cwd path = false) ∧
        ∀ e, (turn.surroundings.install v t).1 = .error e →
          ∀ spelling, Version.normalize spelling = v →
          ∀ s t', (start.after turns).cached? s t' v = none → s.findInstalled? t' v = none →
            ((start.after turns).pathOf s t' spelling).outcome = .error e) ∧
      ∀ install : Installer,
        (∀ call ∈ (turn.answer (start.after before)).calls,
          install call.1 call.2 = turn.surroundings.install call.1 call.2) →
        Turn.answer ⟨turn.surroundings.withInstaller install, turn.tree, turn.question⟩
            (start.after before) =
          turn.answer (start.after before) := by
  intro start
  refine ⟨nodup_callsIn start turns, callsIn_of_not_autoInstall start turns, ?_⟩
  rintro before turn later rfl
  have hoptions : (start.after before).options = options := after_options start before
  refine ⟨fun hpath source hquestion => ?_, fun v t hcall => ?_, fun install h => turn.answer_congr h⟩
  · exact Turn.calls_of_path hquestion (by rw [hoptions]; exact hpath)
  obtain ⟨heq, hcalled⟩ := Turn.called_of_mem hcall
  have hnote := Turn.note_of_call hcall
  obtain ⟨hv, rfl⟩ := Prod.mk.inj heq
  rw [hoptions] at hv
  refine ⟨hv, rfl, fun home hhome => ?_, fun e he spelling hspelling s t' huncached hnot => ?_⟩
  · exact not_isExecutable_of_findInstalled? hhome hcalled.missing.notFound
  · -- The failure is noted after the turn, and from there it is kept to the end.
    have hkept := note_kept_after later hnote
    rw [← after_cons, ← after_append, he] at hkept
    have hallowed : (start.after (before ++ turn :: later)).options.autoInstall = true := by
      simpa using hcalled.allowed
    have hlocated := located_pathOf (start.after (before ++ turn :: later)) s t' spelling
    rw [hspelling] at hlocated
    exact hlocated.tells_failure ⟨hcalled.missing.named, huncached, hnot⟩ hallowed hkept

-- A version that cannot be installed, asked for in three spellings, at first without a home directory.
def offline (home : Option String) : Surroundings :=
  ⟨[], home, fun _ => none, fun _ t => (.error (.told "offline"), t, [])⟩

def twoSpellings : List Turn :=
  [⟨offline none, .empty, .pathOf "v0.8.26"⟩, ⟨offline none, .empty, .pathOf " ^0.8.26"⟩]

theorem install_once_per_version_offline :
    (((Toolchain.new ⟨"", "", true⟩).after twoSpellings).pathOf (offline (some "/h")) .empty
      ">=0.8.26").outcome = .error (.told "offline") := by
  have hcall : ("0.8.26", FileTree.empty) ∈
      (Turn.answer ⟨offline none, .empty, .pathOf "v0.8.26"⟩ (Toolchain.new ⟨"", "", true⟩)).calls := by
    decide +kernel
  have hspelling : Version.normalize ">=0.8.26" = "0.8.26" := by decide +kernel
  have huncached : ((Toolchain.new ⟨"", "", true⟩).after twoSpellings).cached? (offline (some "/h")) .empty
      "0.8.26" = none := by decide +kernel
  have hnot : (offline (some "/h")).findInstalled? .empty "0.8.26" = none := by decide +kernel
  have hsession := (install_once_per_version ⟨"", "", true⟩ twoSpellings).2.2 [] _ _ rfl
  exact (hsession.2.1 _ _ hcall).2.2.2 _ rfl _ hspelling _ _ huncached hnot

end SolidityAst.Solc
