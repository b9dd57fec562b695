import Mathlib.Data.List.Basic
import SolidityAst.Ast.Parse

/-!
Asking a compiler to stop after parsing.

A compiler that may know the wish is asked with it, and once more without it when it refuses the request.
A parse is told by two equations, one for an exchange of one request and one for an exchange of two, and in both
the outcome is what comes of the answer to the last request.
-/
namespace SolidityAst.Ast

open Solc Console

/-- The compiler refuses a request when it reports an error about the JSON that has no place in a source. -/
def Refuses (r : Response) : Prop :=
  ∃ e ∈ r.errors, e.isError = true ∧ e.location = none ∧ e.kind = "JSONError"

theorem refusesRequest_iff {r : Response} : refusesRequest r = true ↔ Refuses r := by
  unfold refusesRequest Refuses
  simp [List.any_eq_true, and_assoc]

-- What a parse makes of the answer it goes by.
def outcomeOf (path : String) (source : Bytes) (binary : Binary) :
    Except Failure Response → Except Failure Tree
  | .ok r => (conclude path source binary r).2
  | .error inner => .error (.during s!"run solc on {path}" inner)

/-- The request for the source at `path`. -/
def requestFor (path : String) (source : Bytes) (stop : Bool) : Request := ⟨Path.base path, source, stop⟩

-- A parse that sent these requests and said this before it had the answer by which it goes.
def parsedAfter (path : String) (source : Bytes) (binary : Binary) (requests : List Request)
    (events : List Event) : Except Failure Response → Parsed
  | .ok r => ⟨requests, events ++ (conclude path source binary r).1, (conclude path source binary r).2⟩
  | .error inner => ⟨requests, events, .error (.during s!"run solc on {path}" inner)⟩

section

variable (run : Runner) (binary : Binary) (path : String) (source : Bytes)

/-- A parse asks again when it asked to stop after parsing and the request was refused. -/
def AsksAgain (stop : Bool) : Prop :=
  stop = true ∧ ∃ r, compile (some run) binary (requestFor path source stop) = .ok r ∧ Refuses r

/-- Asked to stop after parsing, the compiler refuses the request or answers as it does without the wish. -/
def Candid : Prop :=
  (∃ r, compile (some run) binary (requestFor path source true) = .ok r ∧ Refuses r) ∨
    compile (some run) binary (requestFor path source true) =
      compile (some run) binary (requestFor path source false)

-- What is logged when a compiler is asked, and when it is asked again.
def asking : Event := .say .debug "parsing %s with solc %s" [.text path, .text binary.text]

def askingAgain : Event :=
  .say .debug "solc %s rejected stopAfter, retrying %s with full analysis" [.text binary.text, .text path]

variable {run binary path source} {wish : Bool}

/-! ## The two exchanges -/

@[simp] theorem parsedAfter_requests {requests : List Request} {events : List Event}
    (answer : Except Failure Response) :
    (parsedAfter path source binary requests events answer).requests = requests := by
  cases answer <;> rfl

@[simp] theorem parsedAfter_outcome {requests : List Request} {events : List Event}
    (answer : Except Failure Response) :
    (parsedAfter path source binary requests events answer).outcome = outcomeOf path source binary answer := by
  cases answer <;> rfl

theorem parse_of_asksAgain
    (h : AsksAgain run binary path source (wish && Version.supportsStopAfter binary.version)) :
    parse (.ok binary) (some run) wish path source =
      parsedAfter path source binary [requestFor path source true, requestFor path source false]
        [asking binary path, askingAgain binary path]
        (compile (some run) binary (requestFor path source false)) := by
  obtain ⟨hstop, r, hfirst, hrefuses⟩ := h
  rw [hstop] at hfirst
  unfold requestFor at hfirst ⊢
  unfold parse ask
  dsimp only
  rw [hstop, hfirst]
  dsimp only
  rw [Bool.true_and, if_pos (refusesRequest_iff.mpr hrefuses)]
  cases compile (some run) binary ⟨Path.base path, source, false⟩ with
  | error inner => rfl
  | ok r' => rfl

theorem parse_of_not_asksAgain
    (h : ¬ AsksAgain run binary path source (wish && Version.supportsStopAfter binary.version)) :
    parse (.ok binary) (some run) wish path source =
      parsedAfter path source binary
        [requestFor path source (wish && Version.supportsStopAfter binary.version)] [asking binary path]
        (compile (some run) binary
          (requestFor path source (wish && Version.supportsStopAfter binary.version))) := by
  generalize hstop : (wish && Version.supportsStopAfter binary.version) = stop at h ⊢
  unfold AsksAgain requestFor at h
  unfold requestFor
  unfold parse ask
  dsimp only
  rw [hstop]
  cases hfirst : compile (some run) binary ⟨Path.base path, source, stop⟩ with
  | error inner => rfl
  | ok r =>
    have honce : ¬ (stop && refusesRequest r) = true := by
      intro hagain
      rw [Bool.and_eq_true] at hagain
      exact h ⟨hagain.1, r, hfirst, refusesRequest_iff.mp hagain.2⟩
    dsimp only
    rewrite [if_neg honce]
    rfl

/-! ## With and without the wish -/

theorem not_asksAgain_unwished :
    ¬ AsksAgain run binary path source (false && Version.supportsStopAfter binary.version) := by
  rintro ⟨hstop, -⟩
  cases hstop

-- A refused wish is dropped and an unknown one is never made, so the answer without it decides in the end.
theorem Candid.outcome_eq (h : Candid run binary path source) :
    (parse (.ok binary) (some run) true path source).outcome =
      (parse (.ok binary) (some run) false path source).outcome := by
  rw [parse_of_not_asksAgain not_asksAgain_unwished, parsedAfter_outcome, Bool.false_and]
  by_cases hagain :
      AsksAgain run binary path source (true && Version.supportsStopAfter binary.version)
  · simp [parse_of_asksAgain hagain]
  · rw [parse_of_not_asksAgain hagain, parsedAfter_outcome]
    cases hsupports : Version.supportsStopAfter binary.version with
    | false => rfl
    | true =>
      rw [hsupports] at hagain
      rcases h with hrefuses | hsame
      · exact absurd ⟨rfl, hrefuses⟩ hagain
      · rw [Bool.and_self, hsame]

/-! ## Nothing else is asked -/

theorem compile_congr {run' : Runner} {request : Request} (h : run' binary request = run binary request) :
    compile (some run') binary request = compile (some run) binary request := by
  unfold compile
  dsimp only
  rw [h]

-- A runner is only seen through its answers to the requests that are listed.
theorem parse_congr_runner {run' : Runner}
    (h : ∀ request ∈ (parse (.ok binary) (some run) wish path source).requests,
      run' binary request = run binary request) :
    parse (.ok binary) (some run') wish path source = parse (.ok binary) (some run) wish path source := by
  -- Both runners give the first request the same answer, so both are asked again or neither is.
  have htransfer : run' binary (requestFor path source (wish && Version.supportsStopAfter binary.version)) =
        run binary (requestFor path source (wish && Version.supportsStopAfter binary.version)) →
      (AsksAgain run' binary path source (wish && Version.supportsStopAfter binary.version) ↔
        AsksAgain run binary path source (wish && Version.supportsStopAfter binary.version)) := by
    intro hfirst
    unfold AsksAgain
    rw [compile_congr hfirst]
  by_cases hagain : AsksAgain run binary path source (wish && Version.supportsStopAfter binary.version)
  · rw [parse_of_asksAgain hagain, parsedAfter_requests] at h
    have hfirst := h (requestFor path source true) (by simp)
    rw [← hagain.1] at hfirst
    rw [parse_of_asksAgain hagain, parse_of_asksAgain ((htransfer hfirst).mpr hagain),
      compile_congr (h (requestFor path source false) (by simp))]
  · rw [parse_of_not_asksAgain hagain, parsedAfter_requests] at h
    have hfirst := h _ List.mem_cons_self
    rw [parse_of_not_asksAgain hagain, parse_of_not_asksAgain (mt (htransfer hfirst).mp hagain),
      compile_congr hfirst]

end

/-- A compiler that was chosen is sent one request, with the wish to stop after parsing if that is configured
and its version is known to take it, and exactly when this wish is refused a second one without it.  No other
request has a part in the parse.  When a compiler refuses the wish or answers the same with and without it,
the parse ends the same whether the wish is configured or not. -/
theorem parse_negotiates (chosen : Except Failure Binary) (run : Runner) (path : String) (source : Bytes) :
    (∀ wish,
      (∀ f, chosen = .error f → (parse chosen (some run) wish path source).requests = []) ∧
      (∀ binary, chosen = .ok binary →
        (¬ AsksAgain run binary path source (wish && Version.supportsStopAfter binary.version) →
          (parse chosen (some run) wish path source).requests =
            [requestFor path source (wish && Version.supportsStopAfter binary.version)]) ∧
        (AsksAgain run binary path source (wish && Version.supportsStopAfter binary.version) →
          (parse chosen (some run) wish path source).requests =
            [requestFor path source (wish && Version.supportsStopAfter binary.version),
              requestFor path source false])) ∧
      ∀ run' : Runner,
        (∀ binary, chosen = .ok binary →
          ∀ request ∈ (parse chosen (some run) wish path source).requests,
            run' binary request = run binary request) →
        parse chosen (some run') wish path source = parse chosen (some run) wish path source) ∧
    ((∀ binary, chosen = .ok binary → Candid run binary path source) →
      (parse chosen (some run) true path source).outcome =
        (parse chosen (some run) false path source).outcome) := by
  cases chosen with
  | error f =>
    refine ⟨fun wish => ⟨fun _ _ => rfl, fun binary h => ?_, fun _ _ => rfl⟩, fun _ => rfl⟩
    cases h
  | ok binary =>
    refine ⟨fun wish => ⟨fun f h => ?_, fun binary' h => ?_, fun run' h => ?_⟩, fun h => ?_⟩
    · cases h
    · obtain rfl := Except.ok.inj h
      refine ⟨fun honce => ?_, fun hagain => ?_⟩
      · simp [parse_of_not_asksAgain honce]
      · simp [parse_of_asksAgain hagain, hagain.1]
    · exact parse_congr_runner (h binary rfl)
    · exact (h binary rfl).outcome_eq

-- A compiler of unknown version that does not know the wish.
def refusal : Bytes :=
  Text.Utf8.encode "\x7b\"errors\":[\x7b\"severity\":\"error\",\"type\":\"JSONError\"\x7d]\x7d"

def plainAnswer : Bytes :=
  Text.Utf8.encode "\x7b\"sources\":\x7b\"A.sol\":\x7b\"ast\":\x7b\x7d\x7d\x7d\x7d"

def oldCompiler : Runner := fun _ request => .ok (if request.stopAfterParsing then refusal else plainAnswer)

theorem compile_refused : ∃ r, compile (some oldCompiler) ⟨"solc", ""⟩ (requestFor "in/A.sol" [] true) = .ok r ∧
    Refuses r :=
  ⟨⟨[⟨"", "", "", "", "error", "JSONError", none⟩], []⟩, by decide +kernel,
    ⟨"", "", "", "", "error", "JSONError", none⟩, by decide +kernel, by decide +kernel, rfl, rfl⟩

theorem parse_negotiates_refused :
    (parse (.ok ⟨"solc", ""⟩) (some oldCompiler) true "in/A.sol" []).requests =
        [⟨"A.sol", [], true⟩, ⟨"A.sol", [], false⟩] ∧
      (parse (.ok ⟨"solc", ""⟩) (some oldCompiler) true "in/A.sol" []).outcome =
        (parse (.ok ⟨"solc", ""⟩) (some oldCompiler) false "in/A.sol" []).outcome := by
  have hname : Path.base "in/A.sol" = "A.sol" := by decide
  have hsupports : (true && Version.supportsStopAfter "") = true := by decide
  obtain ⟨hrequests, houtcome⟩ := parse_negotiates (.ok ⟨"solc", ""⟩) oldCompiler "in/A.sol" []
  constructor
  · rw [← hname]
    have htwo := (((hrequests true).2.1 _ rfl).2 (by rw [hsupports]; exact ⟨rfl, compile_refused⟩))
    rwa [hsupports] at htwo
  · refine houtcome fun binary h => .inl ?_
    obtain rfl := Except.ok.inj h
    exact compile_refused

end SolidityAst.Ast
