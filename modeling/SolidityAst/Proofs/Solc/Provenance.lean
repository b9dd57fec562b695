import SolidityAst.Proofs.Solc.Candidates
import SolidityAst.Proofs.Solc.Session

/-!
Where the compiler of a version comes from.

As long as the home directory stays the same, everything that a toolchain remembers of a version is one of the
places of that version.  So a compiler that is given out under a version was installed as that version, however
long ago it was found, and a compiler from the search path is given out under none.
-/
namespace SolidityAst.Solc

open Version

/-- Every remembered path is one of the places of its version. -/
def Toolchain.Sound (home : String) (tc : Toolchain) : Prop :=
  ∀ v path, Assoc.find? v tc.cache = some path → path ∈ candidatePaths home v

section

variable {tc : Toolchain} {s : Surroundings} {t : FileTree} {v home path : String} {a : Answer String}

theorem sound_new (options : Options) (home : String) : (Toolchain.new options).Sound home := by
  intro v path h
  cases h

theorem Toolchain.Sound.remember (h : tc.Sound home) (hpath : path ∈ candidatePaths home v) :
    (tc.remember v path).Sound home := by
  intro w path' hfind
  rw [Toolchain.remember, Assoc.find?_insert] at hfind
  split at hfind
  · rename_i heq
    obtain rfl := Option.some.inj hfind
    rw [heq]
    exact hpath
  · exact h w path' hfind

theorem mem_of_findInstalled? (hs : s.home = some home) (h : s.findInstalled? t v = some path) :
    path ∈ candidatePaths home v := by
  rw [Surroundings.findInstalled?, hs] at h
  exact List.mem_of_find?_eq_some h

theorem find?_of_cached? (h : tc.cached? s t v = some path) : Assoc.find? v tc.cache = some path :=
  (Option.filter_eq_some_iff.mp h).1

/-! ## One question -/

theorem Located.sound (h : Located tc s t v a) (hs : s.home = some home) (htc : tc.Sound home) :
    a.toolchain.Sound home := by
  cases h with
  | unnamed | remembered | refused | triedBefore => exact htc
  | found _ _ hfound => exact htc.remember (mem_of_findInstalled? hs hfound)
  -- Installing is noted beside the cache and not in it.
  | failed | vanished => exact htc
  | installed _ _ _ _ hafter =>
    have htried : (tc.tried v (.ok ())).Sound home := htc
    exact htried.remember (mem_of_findInstalled? hs hafter)

theorem Located.outcome_mem (h : Located tc s t v a) (hs : s.home = some home) (htc : tc.Sound home)
    (hok : a.outcome = .ok path) : v ≠ "" ∧ path ∈ candidatePaths home v := by
  cases h with
  | unnamed | refused | triedBefore | failed | vanished => cases hok
  | remembered hnamed hcached =>
    obtain rfl := Except.ok.inj hok
    exact ⟨hnamed, htc v _ (find?_of_cached? hcached)⟩
  | found hnamed _ hfound =>
    obtain rfl := Except.ok.inj hok
    exact ⟨hnamed, mem_of_findInstalled? hs hfound⟩
  | installed hmissing _ _ _ hafter =>
    obtain rfl := Except.ok.inj hok
    exact ⟨hmissing.named, mem_of_findInstalled? hs hafter⟩

/-! ## Sessions -/

theorem Turn.sound {turn : Turn} (hs : turn.surroundings.home = some home) (htc : tc.Sound home) :
    (turn.answer tc).toolchain.Sound home := by
  rcases turn.answer_cases tc with ⟨htoolchain, -⟩ | ⟨a, hlocated, htoolchain, -⟩
  · rw [htoolchain]
    exact htc
  · rw [htoolchain]
    exact hlocated.sound hs htc

theorem sound_after {turns : List Turn} (hturns : ∀ turn ∈ turns, turn.surroundings.home = some home)
    (htc : tc.Sound home) : (tc.after turns).Sound home :=
  after_induction htc fun turn hmem _ htc' => Turn.sound (hturns turn hmem) htc'

theorem fallback_eq_ok {version : String} {b : Binary} (h : Toolchain.fallback s t version = .ok b) :
    b.version = "" ∧ s.onPath t = some b.path := by
  unfold Toolchain.fallback at h
  split at h
  · rename_i path hpath
    obtain rfl := Except.ok.inj h
    exact ⟨rfl, hpath⟩
  · cases h

/-- How a compiler comes to be given out for a source: installed as the version the source wants, or taken from
the search path without a version. -/
inductive Served (home : String) (tc : Toolchain) (s : Surroundings) (t : FileTree) (source : Bytes)
    (b : Binary) : Prop where
  | installed (located : (tc.pathOf s t (tc.wanted source)).outcome = .ok b.path)
      (version : b.version = normalize (tc.wanted source)) (named : b.version ≠ "")
      (place : b.path ∈ candidatePaths home b.version)
  | onPath (e : Failure) (missing : (tc.pathOf s t (tc.wanted source)).outcome = .error e)
      (unnamed : b.version = "") (path : s.onPath (tc.resolve s t source).tree = some b.path)

theorem served_of_resolve (hs : s.home = some home) (htc : tc.Sound home) (hpath : tc.options.path = "")
    {source : Bytes} {b : Binary} (hok : (tc.resolve s t source).outcome = .ok b) :
    Served home tc s t source b := by
  obtain ⟨-, htree, -, houtcome⟩ := resolve_of_no_path s t source hpath
  have hlocated := located_pathOf tc s t (tc.wanted source)
  rw [houtcome] at hok
  cases hfound : (tc.pathOf s t (tc.wanted source)).outcome with
  | ok path =>
    rw [hfound] at hok
    obtain rfl := Except.ok.inj hok
    obtain ⟨hnamed, hmem⟩ := hlocated.outcome_mem hs htc hfound
    exact .installed hfound rfl hnamed hmem
  | error e =>
    rw [hfound] at hok
    obtain ⟨hunnamed, honPath⟩ := fallback_eq_ok hok
    refine .onPath e hfound hunnamed ?_
    rw [htree]
    exact honPath

end

/-! ## One path, one version -/

-- Without a configured version the version is a release, and then it is not changed by normalizing.
theorem isRelease_wanted {options : Options} (hversion : options.version = "") {source : Bytes}
    (h : normalize ((Toolchain.new options).wanted source) ≠ "") :
    IsRelease (normalize ((Toolchain.new options).wanted source)) := by
  have hempty : normalize "" = "" := by decide
  have hwanted : (Toolchain.new options).wanted source = (Pragma.version? source).getD "" :=
    if_pos hversion
  rw [hwanted] at h ⊢
  cases hpragma : Pragma.version? source with
  | none =>
    rw [hpragma, Option.getD_none] at h
    exact absurd hempty h
  | some v =>
    have hrelease := Pragma.isRelease_of_version? hpragma
    rw [Option.getD_some, hrelease.normalize_eq]
    exact hrelease

-- Only one version can be wanted of a toolchain for which one is configured.
theorem normalize_wanted_eq {options : Options} (hversion : options.version ≠ "") (source : Bytes) :
    normalize ((Toolchain.new options).wanted source) = normalize options.version :=
  congrArg normalize (if_neg hversion)

theorem normalize_wanted_unique {options : Options} {home path : String} {source source' : Bytes}
    (hne : normalize ((Toolchain.new options).wanted source) ≠ "")
    (hne' : normalize ((Toolchain.new options).wanted source') ≠ "")
    (h : path ∈ candidatePaths home (normalize ((Toolchain.new options).wanted source)))
    (h' : path ∈ candidatePaths home (normalize ((Toolchain.new options).wanted source'))) :
    normalize ((Toolchain.new options).wanted source) =
      normalize ((Toolchain.new options).wanted source') := by
  by_cases hversion : options.version = ""
  · by_contra hdiffer
    exact candidatePaths_disjoint home (isRelease_wanted hversion hne) (isRelease_wanted hversion hne')
      hdiffer h h'
  · rw [normalize_wanted_eq hversion, normalize_wanted_eq hversion]

/-- A question for the compiler of a source, put in a session that keeps the home directory. -/
structure Inquiry (home : String) where
  before : List Turn
  surroundings : Surroundings
  tree : FileTree
  source : Bytes
  atHome : (∀ turn ∈ before, turn.surroundings.home = some home) ∧ surroundings.home = some home

namespace Inquiry

variable {home : String} {options : Options} {b b' : Binary}

def toolchain (options : Options) (q : Inquiry home) : Toolchain := (Toolchain.new options).after q.before

def answer (options : Options) (q : Inquiry home) : Answer Binary :=
  (q.toolchain options).resolve q.surroundings q.tree q.source

theorem options_eq (options : Options) (q : Inquiry home) : (q.toolchain options).options = options :=
  after_options (Toolchain.new options) q.before

theorem wanted_eq (options : Options) (q : Inquiry home) :
    (q.toolchain options).wanted q.source = (Toolchain.new options).wanted q.source := by
  rewrite [Toolchain.wanted, q.options_eq]
  rfl

theorem served (q : Inquiry home) (hpath : options.path = "") (h : (q.answer options).outcome = .ok b) :
    Served home (q.toolchain options) q.surroundings q.tree q.source b := by
  have hsound : (q.toolchain options).Sound home := sound_after q.atHome.1 (sound_new options home)
  have hpath' : (q.toolchain options).options.path = "" := by rw [q.options_eq, hpath]
  exact served_of_resolve q.atHome.2 hsound hpath' h

theorem version_unique (q q' : Inquiry home) (hpath : options.path = "")
    (h : (q.answer options).outcome = .ok b) (h' : (q'.answer options).outcome = .ok b')
    (hne : b.version ≠ "") (hne' : b'.version ≠ "") (hsame : b.path = b'.path) : b.version = b'.version := by
  cases q.served hpath h with
  | onPath _ _ hunnamed => exact absurd hunnamed hne
  | installed _ hversion _ hmem =>
    cases q'.served hpath h' with
    | onPath _ _ hunnamed' => exact absurd hunnamed' hne'
    | installed _ hversion' _ hmem' =>
      rw [q.wanted_eq] at hversion
      rw [q'.wanted_eq] at hversion'
      rw [← hsame] at hmem'
      rw [hversion] at hne hmem ⊢
      rw [hversion'] at hne' hmem' ⊢
      exact normalize_wanted_unique hne hne' hmem hmem'

end Inquiry

/-- After any session that keeps the home directory, a toolchain without a configured path gives out a compiler
under a version only if that is the wanted one and the compiler stands at one of its places.  When the version
cannot be located, the compiler is the one on the search path and has no version.  Different versions that
sources ask for share no place, and no path is given out under two versions, at whatever times. -/
theorem resolve_never_mixes_versions (options : Options) (home : String) (hpath : options.path = "") :
    (∀ (q : Inquiry home) (b : Binary), (q.answer options).outcome = .ok b →
      (b.version ≠ "" →
        b.version = normalize
            (if options.version = "" then (Pragma.version? q.source).getD "" else options.version) ∧
          b.path ∈ candidatePaths home b.version) ∧
      ((∃ e, ((q.toolchain options).pathOf q.surroundings q.tree
          ((Toolchain.new options).wanted q.source)).outcome = .error e) →
        b.version = "" ∧ q.surroundings.onPath (q.answer options).tree = some b.path)) ∧
    (∀ source source' v w, Pragma.version? source = some v → Pragma.version? source' = some w → v ≠ w →
      List.Disjoint (candidatePaths home v) (candidatePaths home w)) ∧
    ∀ (q q' : Inquiry home) (b b' : Binary), (q.answer options).outcome = .ok b →
      (q'.answer options).outcome = .ok b' → b.version ≠ "" → b'.version ≠ "" → b.path = b'.path →
        b.version = b'.version := by
  refine ⟨fun q b h => ?_, fun source source' v w hv hw hne => ?_, fun q q' b b' h h' => ?_⟩
  · have hserved := q.served hpath h
    rw [← q.wanted_eq]
    cases hserved with
    | installed hlocated hversion _ hmem =>
      refine ⟨fun _ => ⟨?_, hmem⟩, fun ⟨e, he⟩ => ?_⟩
      · rw [hversion, q.wanted_eq]
        rfl
      · rw [hlocated] at he
        cases he
    | onPath _ _ hunnamed honPath => exact ⟨fun hne => absurd hunnamed hne, fun _ => ⟨hunnamed, honPath⟩⟩
  · exact candidatePaths_disjoint home (Pragma.isRelease_of_version? hv) (Pragma.isRelease_of_version? hw) hne
  · exact q.version_unique q' hpath h h'

-- A compiler that was found, and is remembered though it can no longer be executed.
def compilerTree (executable : Bool) : FileTree :=
  ((FileTree.empty.insert ["h"] .directory).insert ["h", ".solcx"] .directory).insert
    ["h", ".solcx", "solc-v0.8.26"] (.file [] executable)

def quietHome : Surroundings :=
  ⟨[], some "/h", fun _ => some "/bin/solc", fun _ t => (.error (.told "offline"), t, [])⟩

def rememberedInquiry : Inquiry "/h" where
  before := [⟨quietHome, compilerTree true, .pathOf "v0.8.26"⟩]
  surroundings := quietHome
  tree := compilerTree false
  source := Text.Utf8.encode "pragma solidity ^0.8.26;"
  atHome := ⟨by simp [quietHome], rfl⟩

theorem resolve_never_mixes_versions_remembered :
    ∃ b, (rememberedInquiry.answer ⟨"", "", false⟩).outcome = .ok b ∧ b.version = "0.8.26" ∧
      b.path ∈ candidatePaths "/h" "0.8.26" := by
  have hanswer : (rememberedInquiry.answer ⟨"", "", false⟩).outcome =
      .ok ⟨"/h/.solcx/solc-v0.8.26", "0.8.26"⟩ := by decide +kernel
  exact ⟨_, hanswer, rfl, (((resolve_never_mixes_versions ⟨"", "", false⟩ "/h" rfl).1 _ _ hanswer).1
    (by decide)).2⟩

end SolidityAst.Solc
