import Mathlib.Data.List.Forall2
import SolidityAst.Ast.Parse

/-!
What a parse comes to.

The answer by which a parse goes is that to its last request.  Its errors are judged in their order, and
the judgement depends only on two things: whether there is an error at all, and whether one of them has no
place in the source.  An error without a place outweighs all others, wherever it stands in the list.
-/
namespace SolidityAst.Ast

open Solc Source

/-- The entries of an answer that keep the source from being used. -/
def blocking (r : Response) : List ErrorEntry := r.errors.filter ErrorEntry.isError

/-- A diagnostic repeats an entry and gives the line and column at which the entry's place starts. -/
def Repeats (index : LineIndex) (d : Diagnostic) (e : ErrorEntry) : Prop :=
  ∃ l, e.location = some l ∧
    d = ⟨e.severity, e.kind, e.errorCode, e.message, e.formattedMessage,
      (index.position l.start).line, (index.position l.start).column⟩

/-! ## Judging the errors -/

theorem judge_cons_of_isError (path : String) (index : LineIndex) (found : List Diagnostic)
    {e : ErrorEntry} (es : List ErrorEntry) (he : e.isError = true) :
    judge path index found (e :: es) =
      match e.location with
      | none => ([], .failed e)
      | some l => judge path index (diagnostic index e l :: found) es := by
  rewrite [judge, if_pos he]
  rfl

theorem judge_cons_of_not_isError (path : String) (index : LineIndex) (found : List Diagnostic)
    {e : ErrorEntry} (es : List ErrorEntry) (he : ¬ e.isError = true) :
    (judge path index found (e :: es)).2 = (judge path index found es).2 := by
  rw [judge, if_neg he]

section

variable (path : String) (index : LineIndex) {es : List ErrorEntry}

/-- The first error without a place decides, whatever was found before it. -/
theorem judge_of_unplaced (found : List Diagnostic) {e : ErrorEntry}
    (h : (es.filter ErrorEntry.isError).find? (·.location.isNone) = some e) :
    (judge path index found es).2 = .failed e := by
  induction es generalizing found with
  | nil => cases h
  | cons a es ih =>
    by_cases ha : a.isError = true
    · rw [List.filter_cons_of_pos ha] at h
      rw [judge_cons_of_isError path index found es ha]
      cases hloc : a.location with
      | none =>
        rw [List.find?_cons_of_pos (by rw [hloc]; rfl), Option.some.injEq] at h
        rw [h]
      | some l =>
        rw [List.find?_cons_of_neg (by rw [hloc]; simp)] at h
        exact ih _ h
    · rw [List.filter_cons_of_neg ha] at h
      rw [judge_cons_of_not_isError path index found es ha]
      exact ih found h

/-- When every error has a place, what is found is followed by one diagnostic for each of them. -/
theorem judge_of_placed (found : List Diagnostic)
    (h : ∀ e ∈ es.filter ErrorEntry.isError, e.location ≠ none) :
    ∃ ds, List.Forall₂ (Repeats index) ds (es.filter ErrorEntry.isError) ∧
      (judge path index found es).2 =
        if found = [] ∧ ds = [] then .accepted else .rejected (found.reverse ++ ds) := by
  induction es generalizing found with
  | nil =>
    refine ⟨[], .nil, ?_⟩
    cases found with
    | nil => rfl
    | cons d found => simp [judge]
  | cons a es ih =>
    by_cases ha : a.isError = true
    · rw [List.filter_cons_of_pos ha] at h ⊢
      rw [judge_cons_of_isError path index found es ha]
      obtain ⟨l, hloc⟩ := Option.ne_none_iff_exists'.mp (h a List.mem_cons_self)
      obtain ⟨ds, hds, hjudge⟩ :=
        ih (diagnostic index a l :: found) fun e he => h e (List.mem_cons_of_mem _ he)
      refine ⟨diagnostic index a l :: ds, .cons ⟨l, hloc, rfl⟩ hds, ?_⟩
      rw [hloc]
      simp [hjudge]
    · rw [List.filter_cons_of_neg ha] at h ⊢
      rw [judge_cons_of_not_isError path index found es ha]
      exact ih found h

end

/-! ## The outcome of an answer -/

section

variable (path : String) (source : Bytes) (binary : Binary) {r : Response}

theorem conclude_of_unplaced {e : ErrorEntry}
    (h : (blocking r).find? (·.location.isNone) = some e) :
    (conclude path source binary r).2 =
      .error (.told s!"solc {binary.text}: {e.kind}: {e.message}") := by
  have hjudge := judge_of_unplaced path (.ofSource source) [] h
  unfold conclude
  dsimp only
  rw [hjudge]

theorem conclude_of_placed (h : ∀ e ∈ blocking r, e.location ≠ none) (hne : blocking r ≠ []) :
    ∃ ds, (conclude path source binary r).2 = .error (.base (.rejected ⟨path, some ds⟩)) ∧
      List.Forall₂ (Repeats (.ofSource source)) ds (blocking r) := by
  obtain ⟨ds, hds, hjudge⟩ := judge_of_placed path (.ofSource source) [] h
  have hfound : ds ≠ [] := by
    rintro rfl
    exact hne (List.forall₂_nil_left_iff.mp hds)
  rw [if_neg fun hempty => hfound hempty.2] at hjudge
  refine ⟨ds, ?_, hds⟩
  unfold conclude
  dsimp only
  rewrite [hjudge]
  rfl

/-- Without an error the tree of the source is read, if there is one. -/
theorem conclude_of_accepted (h : blocking r = []) :
    (conclude path source binary r).2 =
      match (Assoc.find? (Path.base path) r.sources).bind SourceEntry.ast with
      | none => .error (.told s!"solc {binary.text} returned no AST for {path}")
      | some text =>
        match Json.read? (Text.Utf8.chars text) with
        | none => .error (.during s!"decode AST of {path}" (.told "malformed JSON"))
        | some (root, _) => .ok ⟨annotate (.ofSource source) root, Path.base path, binary⟩ := by
  have hplaced : ∀ e ∈ r.errors.filter ErrorEntry.isError, e.location ≠ none := by
    intro e he
    rw [← blocking, h] at he
    cases he
  obtain ⟨ds, hds, hjudge⟩ := judge_of_placed path (.ofSource source) [] hplaced
  rw [← blocking, h] at hds
  cases hds
  rw [if_pos ⟨rfl, rfl⟩] at hjudge
  unfold conclude
  dsimp only
  rewrite [hjudge]
  rfl

theorem conclude_of_accepted_eq_ok (h : blocking r = []) (tree : Tree) :
    (conclude path source binary r).2 = .ok tree ↔
      ∃ entry text root rest, Assoc.find? (Path.base path) r.sources = some entry ∧
        entry.ast = some text ∧ Json.read? (Text.Utf8.chars text) = some (root, rest) ∧
        tree = ⟨annotate (.ofSource source) root, Path.base path, binary⟩ := by
  rw [conclude_of_accepted path source binary h]
  constructor
  · intro hok
    cases hfind : Assoc.find? (Path.base path) r.sources with
    | none =>
      rw [hfind] at hok
      cases hok
    | some entry =>
      rw [hfind, Option.bind_some] at hok
      cases hast : entry.ast with
      | none =>
        rw [hast] at hok
        cases hok
      | some text =>
        rw [hast] at hok
        dsimp only at hok
        cases hread : Json.read? (Text.Utf8.chars text) with
        | none =>
          rw [hread] at hok
          cases hok
        | some found =>
          rw [hread] at hok
          exact ⟨entry, text, found.1, found.2, rfl, hast, hread, (Except.ok.inj hok).symm⟩
  · rintro ⟨entry, text, root, rest, hfind, hast, hread, rfl⟩
    rw [hfind, Option.bind_some, hast]
    dsimp only
    rw [hread]

theorem conclude_of_accepted_plain (h : blocking r = []) {f : Failure}
    (hf : (conclude path source binary r).2 = .error f) : f.syntaxError? = none := by
  rw [conclude_of_accepted path source binary h] at hf
  cases hast : (Assoc.find? (Path.base path) r.sources).bind SourceEntry.ast with
  | none =>
    rw [hast] at hf
    cases hf
    rfl
  | some text =>
    rw [hast] at hf
    dsimp only at hf
    cases hread : Json.read? (Text.Utf8.chars text) with
    | none =>
      rw [hread] at hf
      cases hf
      rfl
    | some found =>
      rw [hread] at hf
      cases hf

-- One of three things holds of the errors of every answer.
theorem blocking_cases (r : Response) :
    (∃ e, (blocking r).find? (·.location.isNone) = some e) ∨
      ((∀ e ∈ blocking r, e.location ≠ none) ∧ blocking r ≠ []) ∨ blocking r = [] := by
  cases hfind : (blocking r).find? (·.location.isNone) with
  | some e => exact .inl ⟨e, rfl⟩
  | none =>
    by_cases hempty : blocking r = []
    · exact .inr (.inr hempty)
    · refine .inr (.inl ⟨fun e he hnone => ?_, hempty⟩)
      have hplaced := List.find?_eq_none.mp hfind e he
      exact hplaced (by rw [hnone]; rfl)

end

/-! ## The outcome of a parse -/

section

variable (chosen : Except Failure Binary) (runner : Option Runner) (stop : Bool) (path : String)
  (source : Bytes)

/-- The answer by which a parse goes: that to its last request, if there is one that can be decoded. -/
def answer? : Option (Binary × Response) := do
  let binary ← chosen.toOption
  let request ← (parse chosen runner stop path source).requests.getLast?
  let r ← (compile runner binary request).toOption
  return (binary, r)

/-- A failure tells of the choice of a compiler or of a request. -/
def Unanswered (f : Failure) : Prop :=
  ∃ doing inner, f = .during doing inner ∧
    (chosen = .error inner ∨
      ∃ binary request, chosen = .ok binary ∧ compile runner binary request = .error inner)

variable {chosen runner stop path source}

theorem answer?_of_no_request (h : (parse chosen runner stop path source).requests = []) :
    answer? chosen runner stop path source = none := by
  unfold answer?
  rw [h]
  cases chosen <;> rfl

-- Requests leave only when there is a runner; the last of them is the one whose answer counts.
theorem answer?_of_sent {binary : Binary} {request : Request} {before : List Request}
    (h : (parse (.ok binary) runner stop path source).requests = sent runner (before ++ [request])) :
    answer? (.ok binary) runner stop path source =
      (compile runner binary request).toOption.map fun r => (binary, r) := by
  cases runner with
  | none =>
    have hnone : (parse (.ok binary) none stop path source).requests = [] := h
    rw [answer?_of_no_request hnone]
    rfl
  | some run =>
    have hlast : (parse (.ok binary) (some run) stop path source).requests.getLast? = some request := by
      rw [h]
      exact List.getLast?_concat
    unfold answer?
    rw [hlast]
    exact (Option.map_eq_bind (f := fun r => (binary, r))).symm

/-- Of one or two requests the last decides: its answer gives the outcome, or its failure does. -/
theorem parse_last_request (binary : Binary) (runner : Option Runner) (stop : Bool) (path : String)
    (source : Bytes) :
    ∃ before request,
      (parse (.ok binary) runner stop path source).requests = sent runner (before ++ [request]) ∧
      (parse (.ok binary) runner stop path source).outcome =
        match compile runner binary request with
        | .ok r => (conclude path source binary r).2
        | .error inner => .error (.during s!"run solc on {path}" inner) := by
  unfold parse ask
  dsimp only
  generalize (stop && Version.supportsStopAfter binary.version) = wish
  cases hfirst : compile runner binary ⟨Path.base path, source, wish⟩ with
  | error inner => exact ⟨[], ⟨Path.base path, source, wish⟩, rfl, by rw [hfirst]⟩
  | ok r =>
    dsimp only
    by_cases hagain : (wish && refusesRequest r) = true
    · rw [if_pos hagain]
      refine ⟨[⟨Path.base path, source, true⟩], ⟨Path.base path, source, false⟩, ?_⟩
      cases compile runner binary ⟨Path.base path, source, false⟩ with
      | error inner => exact ⟨rfl, rfl⟩
      | ok r' => exact ⟨rfl, rfl⟩
    · rw [if_neg hagain]
      exact ⟨[], ⟨Path.base path, source, wish⟩, rfl, by rw [hfirst]⟩

/-- A parse ends without an answer because choosing a compiler or asking it failed, or its outcome is that
of its answer. -/
theorem parse_cases (chosen : Except Failure Binary) (runner : Option Runner) (stop : Bool)
    (path : String) (source : Bytes) :
    (answer? chosen runner stop path source = none ∧
      ∃ f, (parse chosen runner stop path source).outcome = .error f ∧ Unanswered chosen runner f) ∨
    ∃ binary r, answer? chosen runner stop path source = some (binary, r) ∧
      (parse chosen runner stop path source).outcome = (conclude path source binary r).2 := by
  cases chosen with
  | error e => exact .inl ⟨rfl, _, rfl, _, e, rfl, .inl rfl⟩
  | ok binary =>
    obtain ⟨before, request, hsent, houtcome⟩ := parse_last_request binary runner stop path source
    have hanswer := answer?_of_sent hsent
    cases hcompile : compile runner binary request with
    | error inner =>
      rw [hcompile] at hanswer houtcome
      exact .inl ⟨hanswer, _, houtcome, _, inner, rfl, .inr ⟨binary, request, rfl, hcompile⟩⟩
    | ok r =>
      rw [hcompile] at hanswer houtcome
      exact .inr ⟨binary, r, hanswer, houtcome⟩

end

/-- The answer of a parse decides what the parse comes to.  An error without a place in the source makes a
plain failure that tells the first such error, also when errors with a place stand before it.  Otherwise the
errors make a rejection that repeats each of them in order.  Only an answer without errors gives a tree, and
gives it exactly when it has a tree for the source that can be read.  Without an answer the parse fails as
the choice of the compiler or the request did. -/
theorem parse_outcome_classified (chosen : Except Failure Binary) (runner : Option Runner) (stop : Bool)
    (path : String) (source : Bytes) :
    (answer? chosen runner stop path source = none →
      ∃ f, (parse chosen runner stop path source).outcome = .error f ∧ Unanswered chosen runner f) ∧
    (∀ binary r, answer? chosen runner stop path source = some (binary, r) →
      (∀ e, (blocking r).find? (·.location.isNone) = some e →
        ∃ f, (parse chosen runner stop path source).outcome = .error f ∧
          f.message = s!"solc {binary.text}: {e.kind}: {e.message}" ∧ f.syntaxError? = none) ∧
      ((∀ e ∈ blocking r, e.location ≠ none) → blocking r ≠ [] →
        ∃ ds, (parse chosen runner stop path source).outcome =
            .error (.base (.rejected ⟨path, some ds⟩)) ∧
          List.Forall₂ (Repeats (.ofSource source)) ds (blocking r)) ∧
      (blocking r = [] →
        (∀ tree, (parse chosen runner stop path source).outcome = .ok tree ↔
          ∃ entry text root rest, Assoc.find? (Path.base path) r.sources = some entry ∧
            entry.ast = some text ∧ Json.read? (Text.Utf8.chars text) = some (root, rest) ∧
            tree = ⟨annotate (.ofSource source) root, Path.base path, binary⟩) ∧
        ∀ f, (parse chosen runner stop path source).outcome = .error f → f.syntaxError? = none)) ∧
    (∀ tree, (parse chosen runner stop path source).outcome = .ok tree →
      ∃ binary r, answer? chosen runner stop path source = some (binary, r) ∧ blocking r = []) ∧
    ∀ rejection, (parse chosen runner stop path source).outcome = .error (.base (.rejected rejection)) →
      ∃ d ds, rejection.diagnostics = some (d :: ds) := by
  rcases parse_cases chosen runner stop path source with
    ⟨hanswer, f, houtcome, hf⟩ | ⟨binary, r, hanswer, houtcome⟩
  · rw [hanswer, houtcome]
    refine ⟨fun _ => ⟨f, rfl, hf⟩, fun _ _ h => (nomatch h), fun _ h => (nomatch h), fun rejection h => ?_⟩
    obtain ⟨doing, inner, rfl, -⟩ := hf
    cases h
  · rw [hanswer, houtcome]
    refine ⟨fun h => (nomatch h), fun binary' r' h => ?_, fun tree htree => ⟨binary, r, rfl, ?_⟩,
      fun rejection hrejected => ?_⟩
    · obtain ⟨rfl, rfl⟩ := Prod.mk.inj (Option.some.inj h)
      refine ⟨fun e he => ⟨_, conclude_of_unplaced path source binary he, rfl, rfl⟩,
        conclude_of_placed path source binary, fun hempty => ?_⟩
      exact ⟨conclude_of_accepted_eq_ok path source binary hempty,
        fun f hf => conclude_of_accepted_plain path source binary hempty hf⟩
    · rcases blocking_cases r with ⟨e, he⟩ | ⟨hplaced, hne⟩ | hempty
      · rw [conclude_of_unplaced path source binary he] at htree
        cases htree
      · obtain ⟨ds, hds, -⟩ := conclude_of_placed path source binary hplaced hne
        rw [hds] at htree
        cases htree
      · exact hempty
    · rcases blocking_cases r with ⟨e, he⟩ | ⟨hplaced, hne⟩ | hempty
      · rw [conclude_of_unplaced path source binary he] at hrejected
        cases hrejected
      · obtain ⟨ds, hds, hrepeats⟩ := conclude_of_placed path source binary hplaced hne
        rw [hds] at hrejected
        cases hrejected
        cases ds with
        | nil => exact absurd (List.forall₂_nil_left_iff.mp hrepeats) hne
        | cons d ds => exact ⟨d, ds, rfl⟩
      · cases conclude_of_accepted_plain path source binary hempty hrejected

-- An error in the source, in another spelling, stands before one that has no place there.
def mixedErrors : List ErrorEntry :=
  [⟨"", "", "", "", "Error", "", some ⟨"", 3, 0⟩⟩, ⟨"", "", "", "full", "error", "IOError", none⟩]

def mixedAnswer : Bytes :=
  Text.Utf8.encode <|
    "\x7b\"errors\":[\x7b\"severity\":\"Error\",\"sourceLocation\":\x7b\"start\":3\x7d\x7d,"
      ++ "\x7b\"severity\":\"error\",\"type\":\"IOError\",\"message\":\"full\"\x7d]\x7d"

theorem parse_outcome_classified_mixed :
    ∃ f, (parse (.ok ⟨"solc", "0.8.26"⟩) (some fun _ _ => .ok mixedAnswer) true "in/A.sol" []).outcome =
        .error f ∧
      f.message = "solc solc (0.8.26): IOError: full" ∧ f.syntaxError? = none := by
  have hanswer : answer? (.ok ⟨"solc", "0.8.26"⟩) (some fun _ _ => .ok mixedAnswer) true "in/A.sol" [] =
      some (⟨"solc", "0.8.26"⟩, ⟨mixedErrors, []⟩) := by decide +kernel
  have hfirst : (blocking ⟨mixedErrors, []⟩).find? (·.location.isNone) =
      some ⟨"", "", "", "full", "error", "IOError", none⟩ := by decide +kernel
  exact ((parse_outcome_classified _ _ _ _ _).2.1 _ _ hanswer).1 _ hfirst

end SolidityAst.Ast
