import SolidityAst.Proofs.Assoc
import SolidityAst.Solc.Toolchain

/-!
Sessions with a toolchain.

A toolchain is asked question after question, and between two questions the files, the search path and the
installer may change in any way.  So a session is a list of turns, each with what its question finds, and only
the toolchain goes from one turn to the next.  All that a question can do to it is told once, by the ways in
which a version is located.
-/
namespace SolidityAst.Solc

open Console

inductive Question where
  | resolve (source : Bytes)
  | pathOf (version : String)

/-- A question, with the surroundings and the files that it finds. -/
structure Turn where
  surroundings : Surroundings
  tree : FileTree
  question : Question

def Answer.map {α β : Type} (f : α → β) (a : Answer α) : Answer β :=
  ⟨a.outcome.map f, a.toolchain, a.tree, a.events, a.calls⟩

/-- The answer to the question of a turn: a compiler, or the path of a version. -/
def Turn.answer (turn : Turn) (tc : Toolchain) : Answer (Binary ⊕ String) :=
  match turn.question with
  | .resolve source => (tc.resolve turn.surroundings turn.tree source).map .inl
  | .pathOf version => (tc.pathOf turn.surroundings turn.tree version).map .inr

@[simp] theorem Answer.map_toolchain {α β : Type} (f : α → β) (a : Answer α) :
    (a.map f).toolchain = a.toolchain := rfl

@[simp] theorem Answer.map_calls {α β : Type} (f : α → β) (a : Answer α) : (a.map f).calls = a.calls := rfl

/-- The version that a question is about. -/
def Question.wanted (options : Options) : Question → String
  | .resolve source => (Toolchain.new options).wanted source
  | .pathOf version => version

namespace Toolchain

/-- The toolchain after some turns. -/
def after (tc : Toolchain) (turns : List Turn) : Toolchain :=
  turns.foldl (fun tc turn => (turn.answer tc).toolchain) tc

/-- The calls of the installer in some turns. -/
def callsIn (tc : Toolchain) : List Turn → List (String × FileTree)
  | [] => []
  | turn :: turns => (turn.answer tc).calls ++ callsIn (turn.answer tc).toolchain turns

/-- The toolchain once the installation of a version was tried. -/
def tried (tc : Toolchain) (version : String) (outcome : Except Failure Unit) : Toolchain :=
  { tc with installs := Assoc.insert version outcome tc.installs }

end Toolchain

/-- A version that is neither remembered nor installed. -/
structure Missing (tc : Toolchain) (s : Surroundings) (t : FileTree) (v : String) : Prop where
  named : v ≠ ""
  uncached : tc.cached? s t v = none
  notFound : s.findInstalled? t v = none

/-- The ways in which the question for the path of the normalized version `v` is answered. -/
inductive Located (tc : Toolchain) (s : Surroundings) (t : FileTree) (v : String) :
    Answer String → Prop where
  | unnamed (e : Failure) : v = "" → Located tc s t v ⟨.error e, tc, t, [], []⟩
  | remembered {path : String} : v ≠ "" → tc.cached? s t v = some path →
      Located tc s t v ⟨.ok path, tc, t, [], []⟩
  | found {path : String} : v ≠ "" → tc.cached? s t v = none → s.findInstalled? t v = some path →
      Located tc s t v ⟨.ok path, tc.remember v path, t, [], []⟩
  | refused (e : Failure) : Missing tc s t v → tc.options.autoInstall = false →
      Located tc s t v ⟨.error e, tc, t, [], []⟩
  -- The installation was tried before: its failure is told again, or what it installed is gone.
  | triedBefore {e : Failure} {outcome : Except Failure Unit} : Missing tc s t v →
      tc.options.autoInstall = true → Assoc.find? v tc.installs = some outcome →
      (outcome = .ok () ∨ outcome = .error e) → Located tc s t v ⟨.error e, tc, t, [], []⟩
  | failed {e : Failure} {t' : FileTree} {events : List Event} : Missing tc s t v →
      tc.options.autoInstall = true → Assoc.find? v tc.installs = none →
      s.install v t = (.error e, t', events) →
      Located tc s t v ⟨.error e, tc.tried v (.error e), t', events, [(v, t)]⟩
  | installed {path : String} {t' : FileTree} {events : List Event} : Missing tc s t v →
      tc.options.autoInstall = true → Assoc.find? v tc.installs = none →
      s.install v t = (.ok (), t', events) → s.findInstalled? t' v = some path →
      Located tc s t v ⟨.ok path, (tc.tried v (.ok ())).remember v path, t', events, [(v, t)]⟩
  | vanished (e : Failure) {t' : FileTree} {events : List Event} : Missing tc s t v →
      tc.options.autoInstall = true → Assoc.find? v tc.installs = none →
      s.install v t = (.ok (), t', events) → s.findInstalled? t' v = none →
      Located tc s t v ⟨.error e, tc.tried v (.ok ()), t', events, [(v, t)]⟩

section

variable {tc : Toolchain} {s : Surroundings} {t : FileTree} {v : String} {a : Answer String}

/-! ## One question -/

theorem installOnce_of_tried {outcome : Except Failure Unit} (h : Assoc.find? v tc.installs = some outcome) :
    tc.installOnce s t v = ⟨outcome, tc, t, [], []⟩ := by
  rw [Toolchain.installOnce, h]

theorem installOnce_of_not_tried {outcome : Except Failure Unit} {t' : FileTree} {events : List Event}
    (h : Assoc.find? v tc.installs = none) (hinstall : s.install v t = (outcome, t', events)) :
    tc.installOnce s t v = ⟨outcome, tc.tried v outcome, t', events, [(v, t)]⟩ := by
  simp only [Toolchain.installOnce, h, hinstall, Toolchain.tried]

theorem located_pathOf (tc : Toolchain) (s : Surroundings) (t : FileTree) (version : String) :
    Located tc s t (Version.normalize version) (tc.pathOf s t version) := by
  unfold Toolchain.pathOf
  dsimp only
  generalize Version.normalize version = v
  by_cases hnamed : v = ""
  · rw [if_pos hnamed]
    exact .unnamed _ hnamed
  rw [if_neg hnamed]
  cases hcached : tc.cached? s t v with
  | some path => exact .remembered hnamed hcached
  | none =>
  cases hfound : s.findInstalled? t v with
  | some path => exact .found hnamed hcached hfound
  | none =>
  have hmissing : Missing tc s t v := ⟨hnamed, hcached, hfound⟩
  dsimp only
  cases hauto : tc.options.autoInstall with
  | false => exact .refused _ hmissing hauto
  | true =>
  rw [if_neg (by simp)]
  cases htried : Assoc.find? v tc.installs with
  | some outcome =>
    rw [installOnce_of_tried htried]
    cases outcome with
    | error e => exact .triedBefore hmissing hauto htried (.inr rfl)
    | ok _ =>
      dsimp only
      rw [hfound]
      exact .triedBefore hmissing hauto htried (.inl rfl)
  | none =>
    obtain ⟨outcome, t', events, hinstall⟩ :
        ∃ outcome t' events, s.install v t = (outcome, t', events) := ⟨_, _, _, rfl⟩
    rw [installOnce_of_not_tried htried hinstall]
    cases outcome with
    | error e => exact .failed hmissing hauto htried hinstall
    | ok _ =>
      dsimp only
      cases hafter : s.findInstalled? t' v with
      | some path => exact .installed hmissing hauto htried hinstall hafter
      | none => exact .vanished _ hmissing hauto htried hinstall hafter

theorem Located.options_eq (h : Located tc s t v a) : a.toolchain.options = tc.options := by
  cases h <;> rfl

-- With a configured path a toolchain learns nothing.
theorem resolve_of_path (s : Surroundings) (t : FileTree) (source : Bytes) (h : tc.options.path ≠ "") :
    (tc.resolve s t source).toolchain = tc ∧ (tc.resolve s t source).calls = [] := by
  unfold Toolchain.resolve
  dsimp only
  rw [if_pos h]
  split
  · exact ⟨rfl, rfl⟩
  · exact ⟨rfl, rfl⟩

theorem pathOf_empty (tc : Toolchain) (s : Surroundings) (t : FileTree) :
    tc.pathOf s t "" = ⟨.error (.told "version is empty"), tc, t, [], []⟩ := by
  have hempty : Version.normalize "" = "" := by decide
  unfold Toolchain.pathOf
  dsimp only
  rw [if_pos hempty]

/-- Without a configured path a source is served by the path of its version, or by the search path. -/
theorem resolve_of_no_path (s : Surroundings) (t : FileTree) (source : Bytes) (h : tc.options.path = "") :
    (tc.resolve s t source).toolchain = (tc.pathOf s t (tc.wanted source)).toolchain ∧
    (tc.resolve s t source).tree = (tc.pathOf s t (tc.wanted source)).tree ∧
    (tc.resolve s t source).calls = (tc.pathOf s t (tc.wanted source)).calls ∧
    (tc.resolve s t source).outcome =
      match (tc.pathOf s t (tc.wanted source)).outcome with
      | .ok path => .ok ⟨path, Version.normalize (tc.wanted source)⟩
      | .error _ =>
        Toolchain.fallback s (tc.pathOf s t (tc.wanted source)).tree (tc.wanted source) := by
  unfold Toolchain.resolve
  dsimp only
  rw [if_neg (not_not.mpr h)]
  by_cases hwanted : tc.wanted source = ""
  · rw [if_pos hwanted, hwanted, pathOf_empty]
    exact ⟨rfl, rfl, rfl, rfl⟩
  · rw [if_neg hwanted]
    generalize tc.pathOf s t (tc.wanted source) = found
    obtain ⟨outcome, tc', t', events, calls⟩ := found
    cases outcome with
    | ok path => exact ⟨rfl, rfl, rfl, rfl⟩
    | error e => exact ⟨rfl, rfl, rfl, rfl⟩

/-! ## Turns -/

/-- A turn leaves the toolchain alone, or does what locating its version does. -/
theorem Turn.answer_cases (turn : Turn) (tc : Toolchain) :
    ((turn.answer tc).toolchain = tc ∧ (turn.answer tc).calls = []) ∨
    ∃ a, Located tc turn.surroundings turn.tree (Version.normalize (turn.question.wanted tc.options)) a ∧
      (turn.answer tc).toolchain = a.toolchain ∧ (turn.answer tc).calls = a.calls := by
  obtain ⟨s, t, question⟩ := turn
  cases question with
  | pathOf version =>
    refine .inr ⟨tc.pathOf s t version, located_pathOf tc s t version, ?_, ?_⟩
    · simp [Turn.answer]
    · simp [Turn.answer]
  | resolve source =>
    rw [Turn.answer, Answer.map_toolchain, Answer.map_calls]
    by_cases hpath : tc.options.path = ""
    · obtain ⟨htoolchain, -, hcalls, -⟩ := resolve_of_no_path s t source hpath
      have hlocated := located_pathOf tc s t (tc.wanted source)
      generalize tc.pathOf s t (tc.wanted source) = a at hlocated htoolchain hcalls
      exact .inr ⟨a, hlocated, htoolchain, hcalls⟩
    · exact .inl (resolve_of_path s t source hpath)

theorem Turn.calls_of_path {turn : Turn} {source : Bytes} (hquestion : turn.question = .resolve source)
    (h : tc.options.path ≠ "") : (turn.answer tc).calls = [] := by
  simpa [Turn.answer, hquestion] using (resolve_of_path turn.surroundings turn.tree source h).2

/-! ## Sessions -/

@[simp] theorem after_cons (tc : Toolchain) (turn : Turn) (turns : List Turn) :
    tc.after (turn :: turns) = (turn.answer tc).toolchain.after turns := rfl

@[simp] theorem after_append (tc : Toolchain) (turns turns' : List Turn) :
    tc.after (turns ++ turns') = (tc.after turns).after turns' := List.foldl_append

-- What every turn keeps is kept by a session.
theorem after_induction {P : Toolchain → Prop} {turns : List Turn} (h : P tc)
    (hstep : ∀ turn ∈ turns, ∀ tc, P tc → P (turn.answer tc).toolchain) : P (tc.after turns) := by
  induction turns generalizing tc with
  | nil => exact h
  | cons turn turns ih =>
    rw [after_cons]
    exact ih (hstep turn List.mem_cons_self tc h) fun turn' hmem =>
      hstep turn' (List.mem_cons_of_mem _ hmem)

@[simp] theorem Turn.options_eq (turn : Turn) (tc : Toolchain) :
    (turn.answer tc).toolchain.options = tc.options := by
  rcases turn.answer_cases tc with ⟨htoolchain, -⟩ | ⟨a, hlocated, htoolchain, -⟩
  · rw [htoolchain]
  · rw [htoolchain, hlocated.options_eq]

@[simp] theorem after_options (tc : Toolchain) (turns : List Turn) : (tc.after turns).options = tc.options :=
  after_induction (P := fun tc' => tc'.options = tc.options) rfl fun turn _ tc' h =>
    (turn.options_eq tc').trans h

end

end SolidityAst.Solc
