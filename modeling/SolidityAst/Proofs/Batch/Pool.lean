import Mathlib.Logic.Relation
import SolidityAst.Batch.Run

/-!
A batch with several workers at once.

Every file has a worker, and workers start in the order of the files, so many at a time as the runner
allows.  Once it is started a worker goes through its stages one by one, but between two steps of one
worker all the others may take steps, and the work may be cancelled at any moment.

The runner itself works on one file after another.  That is one of these orders.
-/
namespace SolidityAst.Batch

open Console

variable {σ : Type}

/-- How far the worker of a file has come. -/
inductive Stage where
  | waiting
  /-- It runs, but has not looked yet whether the work was cancelled. -/
  | started
  | exporting
  | returned (outcome : Except Failure String)
  | recorded (outcome : Except Failure String)
  | announced (outcome : Except Failure String)
  | finished (outcome : Except Failure String)
  /-- The work was cancelled before the file was exported. -/
  | stopped

/-- Whether a worker takes up one of the places. -/
def Stage.isActive : Stage → Bool
  | waiting | finished _ | stopped => false
  | _ => true

/-- A worker that takes no more steps. -/
def Stage.Ended (s : Stage) : Prop := s = .stopped ∨ ∃ outcome, s = .finished outcome

/-- A batch and its workers. -/
structure Pool (σ : Type) where
  course : Course σ
  workers : List (String × Stage)
  /-- The files whose export was called, in this order. -/
  called : List String
  /-- How exports ended, in this order. -/
  returned : List (String × Except Failure String)

/-- What may come of exporting a file. -/
abbrev Exports (σ : Type) := σ → (file : String) → Exported σ → Prop

namespace Pool

/-- The pool before any worker is started. -/
def start (r : Runner) (cancelled : Bool) (state : σ) (files : List String) : Pool σ :=
  ⟨r.beginning cancelled state files, files.map (·, .waiting), [], []⟩

/-- The number of workers at work. -/
def active (p : Pool σ) : Nat := p.workers.countP fun w => w.2.isActive

/-- Every worker has ended. -/
def Final (p : Pool σ) : Prop := ∀ w ∈ p.workers, w.2.Ended

/-- The export of a file was called and succeeded. -/
def Succeeded (p : Pool σ) (file : String) : Prop := ∃ output, (file, .ok output) ∈ p.returned

/-- A file is among those that the summary lists as failed. -/
def Failed (p : Pool σ) (file : String) : Prop := ∃ f, ⟨file, f⟩ ∈ p.course.summary.failed

/-- The export of a file was not called. -/
def Skipped (p : Pool σ) (file : String) : Prop := file ∉ p.called

/-- The steps that a pool can take. -/
inductive Step (r : Runner) (exports : Exports σ) : Pool σ → Pool σ → Prop
  | cancel (p : Pool σ) : Step r exports p { p with course := { p.course with cancelled := true } }
  | start {p : Pool σ} {before after : List (String × Stage)} {file : String}
      (hworker : p.workers = before ++ (file, .waiting) :: after)
      (hfirst : ∀ w ∈ before, w.2 ≠ .waiting) (hplace : (p.active : Int) < r.concurrency) :
      Step r exports p { p with workers := before ++ (file, .started) :: after }
  | stop {p : Pool σ} {before after : List (String × Stage)} {file : String}
      (hworker : p.workers = before ++ (file, .started) :: after)
      (hcancelled : p.course.cancelled = true) :
      Step r exports p
        { p with
          course := p.course.skip
          workers := before ++ (file, .stopped) :: after }
  | call {p : Pool σ} {before after : List (String × Stage)} {file : String}
      (hworker : p.workers = before ++ (file, .started) :: after)
      (hcancelled : p.course.cancelled = false) :
      Step r exports p
        { p with
          workers := before ++ (file, .exporting) :: after
          called := p.called ++ [file] }
  | ret {p : Pool σ} {before after : List (String × Stage)} {file : String} {done : Exported σ}
      (hworker : p.workers = before ++ (file, .exporting) :: after)
      (hdone : exports p.course.state file done) :
      Step r exports p
        { p with
          course := p.course.exported done
          workers := before ++ (file, .returned done.outcome) :: after
          returned := p.returned ++ [(file, done.outcome)] }
  | record {p : Pool σ} {before after : List (String × Stage)} {file : String}
      {outcome : Except Failure String}
      (hworker : p.workers = before ++ (file, .returned outcome) :: after) :
      Step r exports p
        { p with
          course := p.course.recorded file outcome
          workers := before ++ (file, .recorded outcome) :: after }
  | announce {p : Pool σ} {before after : List (String × Stage)} {file : String}
      {outcome : Except Failure String}
      (hworker : p.workers = before ++ (file, .recorded outcome) :: after) :
      Step r exports p
        { p with
          course := r.announced p.course file outcome
          workers := before ++ (file, .announced outcome) :: after }
  | count {p : Pool σ} {before after : List (String × Stage)} {file : String}
      {outcome : Except Failure String}
      (hworker : p.workers = before ++ (file, .announced outcome) :: after) :
      Step r exports p
        { p with
          course := r.counted p.course outcome
          workers := before ++ (file, .finished outcome) :: after }

/-- A pool can come to another by some number of steps. -/
abbrev Steps (r : Runner) (exports : Exports σ) : Pool σ → Pool σ → Prop :=
  Relation.ReflTransGen (Step r exports)

/-! ## One file after another -/

/-- Exporting by a function. -/
def byFunction (exporting : Exporting σ) : Exports σ :=
  fun state file done => done = exporting state file

section

variable {r : Runner} {p : Pool σ} {before after : List (String × Stage)} {file : String}

-- All steps of a worker after its check, with no step of another between them.
theorem steps_export {exports : Exports σ} {done : Exported σ}
    (hworker : p.workers = before ++ (file, .started) :: after)
    (hcancelled : p.course.cancelled = false) (hdone : exports p.course.state file done) :
    ∃ q, Steps r exports p q ∧ q.workers = before ++ (file, .finished done.outcome) :: after ∧
      q.course = r.counted (r.announced ((p.course.exported done).recorded file done.outcome) file
        done.outcome) done.outcome := by
  have hcalled : Steps r exports p _ := .single (.call hworker hcancelled)
  have hreturned := hcalled.tail (.ret rfl hdone)
  have hrecorded := hreturned.tail (.record rfl)
  have hannounced := hrecorded.tail (.announce rfl)
  have hcounted := hannounced.tail (.count rfl)
  exact ⟨_, hcounted, rfl, rfl⟩

-- A worker can start when all before it have ended.
theorem steps_start {exports : Exports σ} (hplace : 0 < r.concurrency)
    (hworker : p.workers = before ++ (file, .waiting) :: after) (hbefore : ∀ w ∈ before, w.2.Ended)
    (hafter : ∀ w ∈ after, w.2 = .waiting) :
    Steps r exports p { p with workers := before ++ (file, .started) :: after } := by
  have hactive : p.active = 0 := by
    have hb : ∀ w ∈ before, ¬ w.2.isActive = true := by
      intro w hw
      rcases hbefore w hw with hs | ⟨outcome, hs⟩ <;> simp [hs, Stage.isActive]
    have ha : ∀ w ∈ after, ¬ w.2.isActive = true := by
      intro w hw
      simp [hafter w hw, Stage.isActive]
    rw [active, hworker, List.countP_append, List.countP_eq_zero.mpr hb,
      List.countP_cons_of_neg (by simp [Stage.isActive]), List.countP_eq_zero.mpr ha]
  have hfirst : ∀ w ∈ before, w.2 ≠ .waiting := by
    intro w hw
    rcases hbefore w hw with hs | ⟨outcome, hs⟩ <;> simp [hs]
  exact .single (.start hworker hfirst (by rw [hactive]; exact hplace))

variable (exporting : Exporting σ) (cancellation : Cancellation)

theorem steps_work (hplace : 0 < r.concurrency)
    (hworker : p.workers = before ++ (file, .waiting) :: after) (hbefore : ∀ w ∈ before, w.2.Ended)
    (hafter : ∀ w ∈ after, w.2 = .waiting) :
    ∃ q s, Steps r (byFunction exporting) p q ∧ s.Ended ∧ q.workers = before ++ (file, s) :: after ∧
      q.course = r.work exporting cancellation p.course file := by
  have hstarted : Steps r (byFunction exporting) p _ := steps_start hplace hworker hbefore hafter
  cases hcancelled : p.course.cancelled with
  | true =>
    refine ⟨_, .stopped, hstarted.tail (.stop rfl hcancelled), .inl rfl, rfl, ?_⟩
    rw [Runner.work, if_pos hcancelled]
  | false =>
    have hdone : byFunction exporting p.course.state file (exporting p.course.state file) := rfl
    obtain ⟨q, hsteps, hworkers, hcourse⟩ := steps_export (r := r)
      (p := { p with workers := before ++ (file, .started) :: after }) rfl hcancelled hdone
    have hwork : r.work exporting cancellation p.course file =
        { q.course with cancelled := cancellation.after file } := by
      rw [hcourse, Runner.work, if_neg (by rw [hcancelled]; simp)]
    rw [hwork]
    cases hafter : cancellation.after file with
    | true =>
      exact ⟨_, _, (hstarted.trans hsteps).tail (.cancel q), .inr ⟨_, rfl⟩, hworkers, rfl⟩
    | false =>
      refine ⟨q, _, hstarted.trans hsteps, .inr ⟨_, rfl⟩, hworkers, ?_⟩
      rw [← hcancelled, hcourse]
      rfl

/-- Working on one file after another is one of the orders that the steps can have. -/
theorem steps_files (hplace : 0 < r.concurrency) {files : List String}
    (hworkers : p.workers = before ++ files.map (·, .waiting)) (hbefore : ∀ w ∈ before, w.2.Ended) :
    ∃ q, Steps r (byFunction exporting) p q ∧ q.Final ∧
      q.course = files.foldl (r.work exporting cancellation) p.course := by
  induction files generalizing p before with
  | nil =>
    refine ⟨p, .refl, fun w hw => hbefore w ?_, rfl⟩
    rwa [hworkers, List.map_nil, List.append_nil] at hw
  | cons file files ih =>
    obtain ⟨q, s, hsteps, hended, hq, hcourse⟩ := steps_work exporting cancellation hplace
      (by rw [hworkers, List.map_cons]) hbefore (by simp)
    have hq' : q.workers = (before ++ [(file, s)]) ++ files.map (·, .waiting) := by
      rw [hq, List.append_assoc, List.singleton_append]
    have hbefore' : ∀ w ∈ before ++ [(file, s)], w.2.Ended := by
      intro w hw
      rcases List.mem_append.mp hw with hw | hw
      · exact hbefore w hw
      · rw [List.mem_singleton.mp hw]
        exact hended
    obtain ⟨q', hsteps', hfinal, hcourse'⟩ := ih hq' hbefore'
    refine ⟨q', hsteps.trans hsteps', hfinal, ?_⟩
    rw [hcourse', hcourse, List.foldl_cons]

end

end Pool

/-- How a batch of files can end: the last pool and what the batch leaves. -/
inductive Ends (r : Runner) (exports : Exports σ) (input : String) (state : σ) (files : List String) :
    Pool σ → Finished σ → Prop
  | empty (cancelled : Bool) (hfiles : files = []) :
      Ends r exports input state files (Pool.start r cancelled state files)
        (Runner.nothingFound state input)
  | ran {cancelled : Bool} {p : Pool σ} (hfiles : files ≠ [])
      (hsteps : Pool.Steps r exports (Pool.start r cancelled state files) p) (hfinal : p.Final) :
      Ends r exports input state files p (r.conclude p.course)

end SolidityAst.Batch
