import SolidityAst.Proofs.Solc.Provenance

/-!
What a toolchain remembers does not show while nothing changes.

Without installations a toolchain only ever learns where a search finds a version.  As long as the files, the home
directory and the search path stay as they are, a search would find the same again, so a toolchain that has answered
any number of questions answers the next one as a new one does.
-/
namespace SolidityAst.Solc

open Console

/-! ## Answers without what they leave to later questions -/

/-- What an answer tells: the outcome, the files after it, what was logged, and the calls of the installer. -/
structure Told (α : Type) where
  outcome : Except Failure α
  tree : FileTree
  events : List Event
  calls : List (String × FileTree)

def Answer.told {α : Type} (a : Answer α) : Told α := ⟨a.outcome, a.tree, a.events, a.calls⟩

@[simp] theorem Answer.told_outcome {α : Type} (a : Answer α) : a.told.outcome = a.outcome := rfl

@[simp] theorem Answer.told_tree {α : Type} (a : Answer α) : a.told.tree = a.tree := rfl

@[simp] theorem Answer.map_tree {α β : Type} (f : α → β) (a : Answer α) : (a.map f).tree = a.tree := rfl

theorem Answer.told_map {α β : Type} (f : α → β) {a a' : Answer α} (h : a.told = a'.told) :
    (a.map f).told = (a'.map f).told := by
  obtain ⟨outcome, tc, t, events, calls⟩ := a
  obtain ⟨outcome', tc', t', events', calls'⟩ := a'
  cases h
  rfl

/-! ## One question -/

section

variable {tc tc' : Toolchain} {s : Surroundings} {t : FileTree}

/-- Everything that is remembered is what a search finds now. -/
def Toolchain.Current (tc : Toolchain) (s : Surroundings) (t : FileTree) : Prop :=
  ∀ v path, Assoc.find? v tc.cache = some path → s.findInstalled? t v = some path

theorem current_new (options : Options) (s : Surroundings) (t : FileTree) :
    (Toolchain.new options).Current s t := by
  intro v path h
  cases h

-- Looking first at what is remembered gives no more than the search alone.
theorem Toolchain.Current.located (h : tc.Current s t) (v : String) :
    (tc.cached? s t v).or (s.findInstalled? t v) = s.findInstalled? t v := by
  cases hcached : tc.cached? s t v with
  | none => rfl
  | some path =>
    rw [h v path (find?_of_cached? hcached)]
    rfl

/-- What is told of the normalized version `v` without installing it, by where it is. -/
def toldOf (t : FileTree) (v : String) (place? : Option String) : Told String :=
  if v = "" then ⟨.error (.told "version is empty"), t, [], []⟩
  else
    match place? with
    | some path => ⟨.ok path, t, [], []⟩
    | none =>
      let hint := s!"enable solc.auto_install or run: solc-select install {v}"
      ⟨.error (.told s!"solc {v} is not installed ({hint})"), t, [], []⟩

theorem told_pathOf (s : Surroundings) (t : FileTree) (version : String)
    (hoff : tc.options.autoInstall = false) :
    (tc.pathOf s t version).told =
      toldOf t (Version.normalize version)
        ((tc.cached? s t (Version.normalize version)).or (s.findInstalled? t (Version.normalize version))) := by
  unfold Toolchain.pathOf toldOf
  dsimp only
  generalize Version.normalize version = v
  by_cases hnamed : v = ""
  · rw [if_pos hnamed, if_pos hnamed]
    rfl
  rw [if_neg hnamed, if_neg hnamed, hoff]
  cases tc.cached? s t v with
  | some path => rfl
  | none =>
    cases s.findInstalled? t v with
    | some path => rfl
    | none => rfl

theorem pathOf_tree (s : Surroundings) (t : FileTree) (version : String)
    (hoff : tc.options.autoInstall = false) : (tc.pathOf s t version).tree = t := by
  rw [← Answer.told_tree, told_pathOf s t version hoff]
  unfold toldOf
  split
  · rfl
  · split
    · rfl
    · rfl

theorem resolve_tree (s : Surroundings) (t : FileTree) (source : Bytes)
    (hoff : tc.options.autoInstall = false) : (tc.resolve s t source).tree = t := by
  unfold Toolchain.resolve
  dsimp only
  split
  · split
    · rfl
    · rfl
  · split
    · rfl
    · have hpath := pathOf_tree s t (tc.wanted source) hoff
      generalize tc.pathOf s t (tc.wanted source) = a at hpath ⊢
      obtain ⟨outcome, after, tree, events, calls⟩ := a
      cases outcome with
      | ok path => exact hpath
      | error e => exact hpath

theorem wanted_congr (h : tc.options = tc'.options) (source : Bytes) : tc.wanted source = tc'.wanted source := by
  unfold Toolchain.wanted
  rw [h]

/-- Beyond its options a toolchain has a part in the choice for a source only by the path of the wanted version. -/
theorem told_resolve (source : Bytes) (hoptions : tc.options = tc'.options)
    (h : (tc.pathOf s t (tc'.wanted source)).told = (tc'.pathOf s t (tc'.wanted source)).told) :
    (tc.resolve s t source).told = (tc'.resolve s t source).told := by
  unfold Toolchain.resolve
  dsimp only
  rw [wanted_congr hoptions, hoptions]
  by_cases hpath : tc'.options.path = ""
  · rw [if_neg (not_not.mpr hpath), if_neg (not_not.mpr hpath)]
    by_cases hwanted : tc'.wanted source = ""
    · rw [if_pos hwanted, if_pos hwanted]
      rfl
    · rw [if_neg hwanted, if_neg hwanted]
      generalize tc.pathOf s t (tc'.wanted source) = a at h ⊢
      generalize tc'.pathOf s t (tc'.wanted source) = a' at h ⊢
      obtain ⟨outcome, after, tree, events, calls⟩ := a
      obtain ⟨outcome', after', tree', events', calls'⟩ := a'
      cases h
      cases outcome with
      | ok path => rfl
      | error e => rfl
  · rw [if_pos hpath, if_pos hpath]
    split
    · rfl
    · rfl

/-! ## Turns -/

theorem Turn.told_answer (turn : Turn) (hoptions : tc.options = tc'.options)
    (hoff : tc.options.autoInstall = false) (hcurrent : tc.Current turn.surroundings turn.tree)
    (hcurrent' : tc'.Current turn.surroundings turn.tree) :
    (turn.answer tc).told = (turn.answer tc').told := by
  have hpath : ∀ version, (tc.pathOf turn.surroundings turn.tree version).told =
      (tc'.pathOf turn.surroundings turn.tree version).told := by
    intro version
    rw [told_pathOf _ _ version hoff, told_pathOf _ _ version (hoptions ▸ hoff), hcurrent.located,
      hcurrent'.located]
  unfold Turn.answer
  split
  · apply Answer.told_map
    exact told_resolve _ hoptions (hpath _)
  · apply Answer.told_map
    exact hpath _

-- All that is added to the memory without an installation comes from a search.
theorem Located.current {v : String} {a : Answer String} (h : Located tc s t v a)
    (hoff : tc.options.autoInstall = false) (hcurrent : tc.Current s t) : a.toolchain.Current s t := by
  cases h with
  | unnamed | remembered | refused => exact hcurrent
  | found _ _ hfound =>
    intro w path hfind
    rw [Toolchain.remember, Assoc.find?_insert] at hfind
    split at hfind
    · rename_i heq
      rw [heq, ← hfind]
      exact hfound
    · exact hcurrent w path hfind
  | triedBefore _ hauto | failed _ hauto | installed _ hauto | vanished _ _ hauto =>
    rw [hoff] at hauto
    cases hauto

theorem Turn.current (turn : Turn) (hoff : tc.options.autoInstall = false)
    (h : tc.Current turn.surroundings turn.tree) :
    (turn.answer tc).toolchain.Current turn.surroundings turn.tree := by
  rcases turn.answer_cases tc with ⟨htoolchain, -⟩ | ⟨a, hlocated, htoolchain, -⟩
  · rw [htoolchain]
    exact h
  · rw [htoolchain]
    exact hlocated.current hoff h

-- No answer changes the files, so they stay as they are unless someone else changes them.
theorem Turn.tree_eq (turn : Turn) (hoff : tc.options.autoInstall = false) :
    (turn.answer tc).tree = turn.tree := by
  obtain ⟨s, t, question⟩ := turn
  cases question with
  | pathOf version =>
    simpa [Turn.answer] using pathOf_tree s t version hoff
  | resolve source =>
    simpa [Turn.answer] using resolve_tree s t source hoff

/-! ## Sessions -/

theorem current_after (options : Options) (hoff : options.autoInstall = false) (s : Surroundings) (t : FileTree)
    (questions : List Question) :
    ((Toolchain.new options).after (questions.map (Turn.mk s t))).Current s t := by
  -- The options go into the invariant: only without installations does a turn keep what is remembered current.
  have hboth : ((Toolchain.new options).after (questions.map (Turn.mk s t))).options.autoInstall = false ∧
      ((Toolchain.new options).after (questions.map (Turn.mk s t))).Current s t := by
    apply after_induction (P := fun tc => tc.options.autoInstall = false ∧ tc.Current s t)
    · exact ⟨hoff, current_new options s t⟩
    · intro turn hturn tc h
      obtain ⟨question, -, rfl⟩ := List.mem_map.mp hturn
      rw [Turn.options_eq]
      exact ⟨h.1, Turn.current ⟨s, t, question⟩ h.1 h.2⟩
  exact hboth.2

end

/-- While the files, the home directory and the search path stay as they are, a toolchain that installs nothing
answers every question of a session, for the compiler of a source or for the path of a version in any spelling, as a
new toolchain with its options does: with the same compiler or path or the same failure, and with the same log.  No
question changes the files. -/
theorem cache_never_shows (options : Options) (hoff : options.autoInstall = false) (s : Surroundings)
    (t : FileTree) (before : List Question) (question : Question) :
    (Turn.answer ⟨s, t, question⟩ ((Toolchain.new options).after (before.map (Turn.mk s t)))).told =
      (Turn.answer ⟨s, t, question⟩ (Toolchain.new options)).told ∧
    (Turn.answer ⟨s, t, question⟩ (Toolchain.new options)).tree = t := by
  have hoptions := after_options (Toolchain.new options) (before.map (Turn.mk s t))
  constructor
  · apply Turn.told_answer ⟨s, t, question⟩ hoptions
    · rw [hoptions]
      exact hoff
    · exact current_after options hoff s t before
    · exact current_new options s t
  · exact Turn.tree_eq ⟨s, t, question⟩ hoff

-- The version is asked for in another spelling before, and the source is served from memory.
def askedBefore : List Question := [.pathOf " v0.8.26"]

def pragmaQuestion : Question := .resolve (Text.Utf8.encode "pragma solidity ^0.8.26;")

theorem cache_never_shows_spellings :
    ((Toolchain.new ⟨"", "", false⟩).after (askedBefore.map (Turn.mk quietHome (compilerTree true)))).cached?
        quietHome (compilerTree true) "0.8.26" = some "/h/.solcx/solc-v0.8.26" ∧
      (Turn.answer ⟨quietHome, compilerTree true, pragmaQuestion⟩
        ((Toolchain.new ⟨"", "", false⟩).after
          (askedBefore.map (Turn.mk quietHome (compilerTree true))))).outcome =
        .ok (.inl ⟨"/h/.solcx/solc-v0.8.26", "0.8.26"⟩) := by
  have hfresh : (Turn.answer ⟨quietHome, compilerTree true, pragmaQuestion⟩
      (Toolchain.new ⟨"", "", false⟩)).outcome = .ok (.inl ⟨"/h/.solcx/solc-v0.8.26", "0.8.26"⟩) := by
    decide +kernel
  have hsame := congrArg Told.outcome (cache_never_shows ⟨"", "", false⟩ rfl quietHome (compilerTree true)
    askedBefore pragmaQuestion).1
  rw [Answer.told_outcome, Answer.told_outcome, hfresh] at hsame
  exact ⟨by decide +kernel, hsame⟩

end SolidityAst.Solc
