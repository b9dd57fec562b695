import Mathlib.Data.List.Nodup
import Mathlib.Data.List.Perm.Basic
import SolidityAst.Proofs.Batch.Discovery
import SolidityAst.Proofs.Batch.Pool
import SolidityAst.Proofs.Text.Utf8Order

/-!
The accounts of a batch.

The summary and the bar are written by all workers, in whatever order they come.  What is counted does not
depend on that order: at every moment the summary is what recording the outcomes of some workers gives, in
some order, and these are the workers that have got as far as that.  The same holds of the bar and of the
workers that were stopped.  When all workers have ended, the accounts add up.
-/
namespace SolidityAst.Batch

open Console Text

variable {σ : Type} {α : Type}

/-- A file and how its export ended. -/
abbrev Ending := String × Except Failure String

/-! ## What workers have added to the accounts -/

namespace Stage

def calls (file : String) : Stage → List String
  | waiting | started | stopped => []
  | _ => [file]

def returns (file : String) : Stage → List Ending
  | returned outcome | recorded outcome | announced outcome | finished outcome => [(file, outcome)]
  | _ => []

def records (file : String) : Stage → List Ending
  | recorded outcome | announced outcome | finished outcome => [(file, outcome)]
  | _ => []

def counts (file : String) : Stage → List Ending
  | finished outcome => [(file, outcome)]
  | _ => []

def stops (file : String) : Stage → List String
  | stopped => [file]
  | _ => []

end Stage

/-- What all workers have added. -/
def gathered (f : String → Stage → List α) (workers : List (String × Stage)) : List α :=
  workers.flatMap fun w => f w.1 w.2

/-- The additions of the workers in some order have a property. -/
def Logged (f : String → Stage → List α) (workers : List (String × Stage)) (P : List α → Prop) : Prop :=
  ∃ log, log.Perm (gathered f workers) ∧ P log

section

variable {f : String → Stage → List α} {workers before after : List (String × Stage)}
  {file : String} {s s' : Stage} {P P' : List α → Prop}

@[simp] theorem gathered_cons (f : String → Stage → List α) (w : String × Stage)
    (workers : List (String × Stage)) :
    gathered f (w :: workers) = f w.1 w.2 ++ gathered f workers :=
  List.flatMap_cons

theorem gathered_move (f : String → Stage → List α) (before after : List (String × Stage))
    (file : String) (s : Stage) :
    gathered f (before ++ (file, s) :: after) = gathered f before ++ (f file s ++ gathered f after) := by
  rw [gathered, List.flatMap_append, ← gathered, ← gathered, gathered_cons]

-- A worker moves on and adds nothing.
theorem Logged.keep (hworker : workers = before ++ (file, s) :: after) (hadd : f file s' = f file s)
    (h : Logged f workers P) : Logged f (before ++ (file, s') :: after) P := by
  rw [Logged, gathered_move, hadd, ← gathered_move, ← hworker]
  exact h

-- A worker moves on and adds something, which comes last in the log.
theorem Logged.gain {x : α} (hworker : workers = before ++ (file, s) :: after)
    (hold : f file s = []) (hadd : f file s' = [x]) (h : Logged f workers P)
    (hP : ∀ log, P log → P' (log ++ [x])) : Logged f (before ++ (file, s') :: after) P' := by
  obtain ⟨log, hperm, hlog⟩ := h
  refine ⟨log ++ [x], ?_, hP log hlog⟩
  rw [hworker, gathered_move, hold, List.nil_append] at hperm
  rw [gathered_move, hadd, List.singleton_append]
  have hfront : (x :: log).Perm (gathered f before ++ x :: gathered f after) :=
    (hperm.cons x).trans List.perm_middle.symm
  exact (List.perm_append_singleton x log).trans hfront

theorem gathered_waiting (hwait : ∀ file, f file .waiting = []) (files : List String) :
    gathered f (files.map (·, .waiting)) = [] := by
  rw [gathered, List.flatMap_eq_nil_iff]
  intro w hw
  obtain ⟨file, -, rfl⟩ := List.mem_map.mp hw
  exact hwait file

end

/-! ## The accounts along a run -/

/-- The summary after a file is recorded in it. -/
def noted (s : Summary) (e : Ending) : Summary := s.record e.1 e.2

/-- The bar after a file is counted in it. -/
def ticked (b : Bar) (e : Ending) : Bar := b.increment (!e.2.isOk)

/-- The accounts of a pool are those of its workers. -/
structure Tally (r : Runner) (files : List String) (p : Pool σ) : Prop where
  names : p.workers.map Prod.fst = files
  called : Logged Stage.calls p.workers (p.called = ·)
  returned : Logged Stage.returns p.workers (p.returned = ·)
  summary : Logged Stage.records p.workers (p.course.summary = ·.foldl noted (.start files.length))
  bar : Logged Stage.counts p.workers
    (p.course.bar = ·.foldl ticked (Bar.new "Exporting" files.length r.live))
  stopped : Logged Stage.stops p.workers fun log =>
    p.course.skipped = log.length ∧
      p.course.failure = (if log = [] then none else some (.base .canceled)) ∧
      (log ≠ [] → p.course.cancelled = true)

theorem tally_start (r : Runner) (cancelled : Bool) (state : σ) (files : List String) :
    Tally r files (Pool.start r cancelled state files) where
  names := by
    rw [Pool.start, List.map_map]
    exact List.map_id files
  called := ⟨[], by rw [Pool.start, gathered_waiting fun _ => rfl], rfl⟩
  returned := ⟨[], by rw [Pool.start, gathered_waiting fun _ => rfl], rfl⟩
  summary := ⟨[], by rw [Pool.start, gathered_waiting fun _ => rfl], rfl⟩
  bar := ⟨[], by rw [Pool.start, gathered_waiting fun _ => rfl], rfl⟩
  stopped := ⟨[], by rw [Pool.start, gathered_waiting fun _ => rfl], rfl, rfl, fun h => absurd rfl h⟩

theorem map_fst_move {workers before after : List (String × Stage)} {file : String} {s : Stage}
    (hworker : workers = before ++ (file, s) :: after) (s' : Stage) :
    (before ++ (file, s') :: after).map Prod.fst = workers.map Prod.fst := by
  rw [hworker, List.map_append, List.map_append, List.map_cons, List.map_cons]

/-- No step puts the accounts out of order. -/
theorem Tally.step {r : Runner} {exports : Exports σ} {files : List String} {p q : Pool σ}
    (hp : Tally r files p) (h : Pool.Step r exports p q) : Tally r files q := by
  -- Each step moves one worker on, and at most one of the logs gets longer.
  cases h with
  | cancel =>
    obtain ⟨log, hperm, hskipped, hfailure, -⟩ := hp.stopped
    exact { hp with stopped := ⟨log, hperm, hskipped, hfailure, fun _ => rfl⟩ }
  | start hworker _ _ =>
    exact
      { names := (map_fst_move hworker _).trans hp.names
        called := hp.called.keep hworker rfl
        returned := hp.returned.keep hworker rfl
        summary := hp.summary.keep hworker rfl
        bar := hp.bar.keep hworker rfl
        stopped := hp.stopped.keep hworker rfl }
  | stop hworker hcancelled =>
    exact
      { names := (map_fst_move hworker _).trans hp.names
        called := hp.called.keep hworker rfl
        returned := hp.returned.keep hworker rfl
        summary := hp.summary.keep hworker rfl
        bar := hp.bar.keep hworker rfl
        stopped := hp.stopped.gain hworker rfl rfl fun log ⟨hskipped, hfailure, _⟩ => by
          refine ⟨?_, ?_, fun _ => hcancelled⟩
          · rw [Course.skip, hskipped, List.length_append, List.length_singleton]
          · rw [if_neg (List.append_ne_nil_of_right_ne_nil log (List.cons_ne_nil _ _))]
            show (p.course.failure <|> some (.base .canceled)) = some (.base .canceled)
            rw [hfailure]
            by_cases hlog : log = []
            · rw [if_pos hlog]
              rfl
            · rw [if_neg hlog]
              rfl }
  | call hworker _ =>
    exact
      { names := (map_fst_move hworker _).trans hp.names
        called := hp.called.gain hworker rfl rfl fun log hlog => by rw [hlog]
        returned := hp.returned.keep hworker rfl
        summary := hp.summary.keep hworker rfl
        bar := hp.bar.keep hworker rfl
        stopped := hp.stopped.keep hworker rfl }
  | ret hworker _ =>
    exact
      { names := (map_fst_move hworker _).trans hp.names
        called := hp.called.keep hworker rfl
        returned := hp.returned.gain hworker rfl rfl fun log hlog => by rw [hlog]
        summary := hp.summary.keep hworker rfl
        bar := hp.bar.keep hworker rfl
        stopped := hp.stopped.keep hworker rfl }
  | record hworker =>
    exact
      { names := (map_fst_move hworker _).trans hp.names
        called := hp.called.keep hworker rfl
        returned := hp.returned.keep hworker rfl
        summary := hp.summary.gain hworker rfl rfl fun log hlog => by
          rw [List.foldl_append, ← hlog]
          rfl
        bar := hp.bar.keep hworker rfl
        stopped := hp.stopped.keep hworker rfl }
  | announce hworker =>
    exact
      { names := (map_fst_move hworker _).trans hp.names
        called := hp.called.keep hworker rfl
        returned := hp.returned.keep hworker rfl
        summary := hp.summary.keep hworker rfl
        bar := hp.bar.keep hworker rfl
        stopped := hp.stopped.keep hworker rfl }
  | count hworker =>
    exact
      { names := (map_fst_move hworker _).trans hp.names
        called := hp.called.keep hworker rfl
        returned := hp.returned.keep hworker rfl
        summary := hp.summary.keep hworker rfl
        bar := hp.bar.gain hworker rfl rfl fun log hlog => by
          rw [List.foldl_append, ← hlog]
          rfl
        stopped := hp.stopped.keep hworker rfl }

theorem tally_of_steps {r : Runner} {exports : Exports σ} {files : List String} {cancelled : Bool}
    {state : σ} {p : Pool σ}
    (h : Pool.Steps r exports (Pool.start r cancelled state files) p) : Tally r files p := by
  induction h with
  | refl => exact tally_start r cancelled state files
  | tail _ hstep ih => exact ih.step hstep

/-! ## What the logs come to -/

/-- The entry of a file that failed. -/
def failedFile? : Ending → Option FailedFile
  | (file, .error f) => some ⟨file, f⟩
  | (_, .ok _) => none

theorem foldl_noted (log : List Ending) (s : Summary) :
    (log.foldl noted s).total = s.total ∧
      (log.foldl noted s).succeeded = s.succeeded + log.countP (·.2.isOk) ∧
      (log.foldl noted s).failed = s.failed ++ log.filterMap failedFile? := by
  induction log generalizing s with
  | nil => simp
  | cons e log ih =>
    obtain ⟨htotal, hsucceeded, hfailed⟩ := ih (noted s e)
    rw [List.foldl_cons, htotal, hsucceeded, hfailed]
    obtain ⟨file, f | output⟩ := e
    · refine ⟨rfl, ?_, ?_⟩
      · rw [List.countP_cons_of_neg (by simp [Except.isOk, Except.toBool])]
        rfl
      · rw [List.filterMap_cons_some (rfl : failedFile? (file, .error f) = some ⟨file, f⟩)]
        simp [noted, Summary.record]
    · refine ⟨rfl, ?_, ?_⟩
      · rw [List.countP_cons_of_pos (by simp [Except.isOk, Except.toBool])]
        simp only [noted, Summary.record]
        omega
      · rw [List.filterMap_cons_none rfl]
        rfl

theorem foldl_ticked (log : List Ending) (b : Bar) :
    (log.foldl ticked b).current = b.current + log.length ∧
      (log.foldl ticked b).failed = b.failed + (log.filterMap failedFile?).length := by
  induction log generalizing b with
  | nil => simp
  | cons e log ih =>
    obtain ⟨hcurrent, hfailed⟩ := ih (ticked b e)
    rw [List.foldl_cons, hcurrent, hfailed, List.length_cons]
    obtain ⟨file, f | output⟩ := e
    · rw [List.filterMap_cons_some (rfl : failedFile? (file, .error f) = some ⟨file, f⟩),
        List.length_cons]
      have htick : ticked b (file, .error f) =
          { b with current := b.current + 1, failed := b.failed + 1 } := rfl
      rw [htick]
      constructor <;> push_cast <;> omega
    · rw [List.filterMap_cons_none rfl]
      have htick : ticked b (file, .ok output) = { b with current := b.current + 1 } := rfl
      rw [htick]
      constructor <;> push_cast <;> omega

theorem countP_add_length_failed (log : List Ending) :
    log.countP (·.2.isOk) + (log.filterMap failedFile?).length = log.length := by
  induction log with
  | nil => rfl
  | cons e log ih =>
    obtain ⟨file, f | output⟩ := e
    · rw [List.countP_cons_of_neg (by simp [Except.isOk, Except.toBool]),
        List.filterMap_cons_some (rfl : failedFile? (file, .error f) = some ⟨file, f⟩),
        List.length_cons, List.length_cons, ← ih]
      omega
    · rw [List.countP_cons_of_pos (by simp [Except.isOk, Except.toBool]), List.filterMap_cons_none rfl,
        List.length_cons, ← ih]
      omega

theorem mem_failed {log : List Ending} {file : String} {f : Failure} :
    ⟨file, f⟩ ∈ log.filterMap failedFile? ↔ (file, .error f) ∈ log := by
  rw [List.mem_filterMap]
  constructor
  · rintro ⟨⟨file', f' | output⟩, hmem, heq⟩
    · rw [failedFile?, Option.some.injEq, FailedFile.mk.injEq] at heq
      rwa [← heq.1, ← heq.2]
    · cases heq
  · intro hmem
    exact ⟨_, hmem, rfl⟩

theorem distinct_failed {log : List Ending} (h : (log.map Prod.fst).Nodup) :
    (log.filterMap failedFile?).Pairwise fun a b => a.path ≠ b.path := by
  rw [List.pairwise_filterMap]
  refine (List.pairwise_map.mp h).imp fun {a b} hne x hx y hy => ?_
  have hpath : ∀ {e : Ending} {z : FailedFile}, failedFile? e = some z → z.path = e.1 := by
    rintro ⟨file, f | output⟩ z hz
    · cases hz
      rfl
    · cases hz
  rw [hpath hx, hpath hy]
  exact hne

/-! ## When all workers have ended -/

section

variable {workers : List (String × Stage)} (h : ∀ w ∈ workers, w.2.Ended)

include h

theorem gathered_records_ended : gathered Stage.records workers = gathered Stage.counts workers := by
  refine List.flatMap_congr fun w hw => ?_
  rcases h w hw with hs | ⟨outcome, hs⟩ <;> rw [hs] <;> rfl

theorem gathered_returns_ended : gathered Stage.returns workers = gathered Stage.counts workers := by
  refine List.flatMap_congr fun w hw => ?_
  rcases h w hw with hs | ⟨outcome, hs⟩ <;> rw [hs] <;> rfl

theorem gathered_calls_ended :
    gathered Stage.calls workers = (gathered Stage.counts workers).map Prod.fst := by
  rw [gathered, gathered, List.map_flatMap]
  refine List.flatMap_congr fun w hw => ?_
  rcases h w hw with hs | ⟨outcome, hs⟩ <;> rw [hs] <;> rfl

theorem length_ended :
    workers.length = (gathered Stage.counts workers).length + (gathered Stage.stops workers).length := by
  induction workers with
  | nil => rfl
  | cons w workers ih =>
    have hrest := ih fun w hw => h w (List.mem_cons_of_mem _ hw)
    have hone : (Stage.counts w.1 w.2).length + (Stage.stops w.1 w.2).length = 1 := by
      rcases h w List.mem_cons_self with hs | ⟨outcome, hs⟩ <;> rw [hs] <;> rfl
    rw [gathered_cons, gathered_cons, List.length_append, List.length_append, List.length_cons, hrest]
    omega

end

theorem sublist_counts (workers : List (String × Stage)) :
    ((gathered Stage.counts workers).map Prod.fst).Sublist (workers.map Prod.fst) := by
  induction workers with
  | nil => exact List.Sublist.refl _
  | cons w workers ih =>
    obtain ⟨file, s⟩ := w
    rw [gathered_cons, List.map_append, List.map_cons]
    cases s with
    | finished outcome => exact ih.cons_cons file
    | _ => exact ih.cons file

/-- The accounts of a pool whose workers have all ended, by the endings of the exports. -/
structure Settled (files : List String) (p : Pool σ) (endings : List Ending) : Prop where
  names : (endings.map Prod.fst).Sublist files
  called : p.called.Perm (endings.map Prod.fst)
  returned : p.returned.Perm endings
  length : endings.length + p.course.skipped = files.length
  total : p.course.summary.total = files.length
  succeeded : p.course.summary.succeeded = endings.countP (·.2.isOk)
  failed : p.course.summary.failed.Perm (endings.filterMap failedFile?)
  current : p.course.bar.current = endings.length
  missed : p.course.bar.failed = (endings.filterMap failedFile?).length
  failure : p.course.failure = if p.course.skipped = 0 then none else some (.base .canceled)
  cancelled : p.course.skipped ≠ 0 → p.course.cancelled = true

theorem Tally.settled {r : Runner} {files : List String} {p : Pool σ} (hp : Tally r files p)
    (hfinal : p.Final) : Settled files p (gathered Stage.counts p.workers) := by
  obtain ⟨called, hcalled, hcalledEq⟩ := hp.called
  obtain ⟨returned, hreturned, hreturnedEq⟩ := hp.returned
  obtain ⟨recorded, hrecorded, hsummary⟩ := hp.summary
  obtain ⟨counted, hcounted, hbar⟩ := hp.bar
  obtain ⟨stopped, hstopped, hskipped, hfailure, hcancelled⟩ := hp.stopped
  rw [gathered_calls_ended hfinal] at hcalled
  rw [gathered_returns_ended hfinal] at hreturned
  rw [gathered_records_ended hfinal] at hrecorded
  obtain ⟨htotal, hsucceeded, hfailed⟩ := foldl_noted recorded (.start files.length)
  obtain ⟨hcurrent, hmissed⟩ := foldl_ticked counted (Bar.new "Exporting" files.length r.live)
  have hzero : stopped = [] ↔ p.course.skipped = 0 := by
    rw [hskipped, List.length_eq_zero_iff]
  refine ⟨?_, ?_, ?_, ?_, ?_, ?_, ?_, ?_, ?_, ?_, ?_⟩
  · rw [← hp.names]
    exact sublist_counts p.workers
  · rw [hcalledEq]
    exact hcalled
  · rw [hreturnedEq]
    exact hreturned
  · rw [hskipped, hstopped.length_eq, ← length_ended hfinal, ← hp.names, List.length_map]
  · rw [hsummary, htotal]
    rfl
  · rw [hsummary, hsucceeded, hrecorded.countP_eq]
    exact Nat.zero_add _
  · rw [hsummary, hfailed]
    exact hrecorded.filterMap _
  · rw [hbar, hcurrent, hcounted.length_eq]
    exact Int.zero_add _
  · rw [hbar, hmissed, (hcounted.filterMap failedFile?).length_eq]
    exact Int.zero_add _
  · rw [hfailure]
    simp only [hzero]
  · exact fun hne => hcancelled fun he => hne (hzero.mp he)

namespace Settled

variable {files : List String} {p : Pool σ} {endings : List Ending} (hp : Settled files p endings)

include hp

theorem nodup_called (hfiles : files.Nodup) : p.called.Nodup :=
  hp.called.nodup_iff.mpr (hp.names.nodup hfiles)

theorem called_subset : p.called ⊆ files := fun _ hfile =>
  hp.names.subset (hp.called.mem_iff.mp hfile)

theorem sum : p.course.summary.succeeded + p.course.summary.failed.length + p.course.skipped =
    files.length := by
  rw [hp.succeeded, hp.failed.length_eq, countP_add_length_failed, hp.length]

theorem mem_failed_iff {file : String} {f : Failure} :
    ⟨file, f⟩ ∈ p.course.summary.failed ↔ (file, .error f) ∈ p.returned := by
  rw [hp.failed.mem_iff, mem_failed, hp.returned.mem_iff]

/-- The files without an ending are those that were skipped. -/
theorem skipped_eq (hfiles : files.Nodup) :
    p.course.skipped = files.countP fun file => decide (file ∉ p.called) := by
  have hperm : (files.filter fun file => decide (file ∈ p.called)).Perm p.called := by
    rw [List.perm_ext_iff_of_nodup (hfiles.filter _) (hp.nodup_called hfiles)]
    intro file
    rw [List.mem_filter, decide_eq_true_eq]
    exact ⟨fun h => h.2, fun h => ⟨hp.called_subset h, h⟩⟩
  have hcalled : (files.countP fun file => decide (file ∈ p.called)) = endings.length := by
    rw [List.countP_eq_length_filter, hperm.length_eq, hp.called.length_eq, List.length_map]
  have hsplit := List.length_eq_countP_add_countP (fun file => decide (file ∈ p.called)) (l := files)
  have hneg : (files.countP fun file => decide (file ∉ p.called)) =
      files.countP fun file => decide ¬ decide (file ∈ p.called) = true := by
    simp
  have hlength := hp.length
  omega

theorem mem_called_iff {file : String} :
    file ∈ p.called ↔ ∃ outcome, (file, outcome) ∈ p.returned := by
  rw [hp.called.mem_iff, List.mem_map]
  constructor
  · rintro ⟨⟨_, outcome⟩, hmem, rfl⟩
    exact ⟨outcome, hp.returned.mem_iff.mpr hmem⟩
  · rintro ⟨outcome, hmem⟩
    exact ⟨_, hp.returned.mem_iff.mp hmem, rfl⟩

theorem outcome_unique (hfiles : files.Nodup) {file : String} {o o' : Except Failure String}
    (ho : (file, o) ∈ p.returned) (ho' : (file, o') ∈ p.returned) : o = o' := by
  have hnodup : (endings.map Prod.fst).Nodup := hp.names.nodup hfiles
  have hsame := List.inj_on_of_nodup_map hnodup (hp.returned.mem_iff.mp ho) (hp.returned.mem_iff.mp ho')
    rfl
  exact congrArg Prod.snd hsame

/-- Every file either succeeded, failed or was skipped, and only one of these. -/
theorem one_outcome (hfiles : files.Nodup) (file : String) :
    (p.Succeeded file ∨ p.Failed file ∨ p.Skipped file) ∧ ¬ (p.Succeeded file ∧ p.Failed file) ∧
      ¬ (p.Succeeded file ∧ p.Skipped file) ∧ ¬ (p.Failed file ∧ p.Skipped file) := by
  refine ⟨?_, ?_, ?_, ?_⟩
  · by_cases hcalled : file ∈ p.called
    · obtain ⟨f | output, hmem⟩ := hp.mem_called_iff.mp hcalled
      · exact .inr (.inl ⟨f, hp.mem_failed_iff.mpr hmem⟩)
      · exact .inl ⟨output, hmem⟩
    · exact .inr (.inr hcalled)
  · rintro ⟨⟨output, hok⟩, f, hf⟩
    cases hp.outcome_unique hfiles hok (hp.mem_failed_iff.mp hf)
  · rintro ⟨⟨output, hok⟩, hskipped⟩
    exact hskipped (hp.mem_called_iff.mpr ⟨_, hok⟩)
  · rintro ⟨⟨f, hf⟩, hskipped⟩
    exact hskipped (hp.mem_called_iff.mpr ⟨_, hp.mem_failed_iff.mp hf⟩)

/-- In the sorted summary every failed file stands once, in the order of the bytes of its path. -/
theorem sorted_failed (hfiles : files.Nodup) :
    p.course.summary.sorted.failed.Pairwise fun a b => Utf8.encode a.path < Utf8.encode b.path := by
  have hdistinct : p.course.summary.failed.Pairwise fun a b => a.path ≠ b.path :=
    (hp.failed.pairwise_iff fun hne => Ne.symm hne).mpr (distinct_failed (hp.names.nodup hfiles))
  exact (pairwise_lt_mergeSort FailedFile.path hdistinct).imp fun hlt => Utf8.encode_lt hlt

end Settled

/-! ## Batches -/

section

variable {r : Runner} {exports : Exports σ} {input : String} {state : σ} {files : List String}
  {p : Pool σ} {done : Finished σ}

theorem Ends.settled (h : Ends r exports input state files p done) :
    ∃ endings, Settled files p endings := by
  cases h with
  | empty cancelled hfiles =>
    refine ⟨_, (tally_start r cancelled state files).settled fun w hw => ?_⟩
    rw [Pool.start, hfiles] at hw
    cases hw
  | ran _ hsteps hfinal => exact ⟨_, (tally_of_steps hsteps).settled hfinal⟩

-- What a batch leaves is read off its last pool, also when there was nothing to do.
theorem Ends.result (h : Ends r exports input state files p done) :
    done.failure = p.course.failure.map (.during "batch interrupted") ∧
      ∃ s, done.summary = some s ∧ s.total = p.course.summary.total ∧
        s.succeeded = p.course.summary.succeeded ∧ s.failed = p.course.summary.sorted.failed := by
  cases h with
  | empty cancelled hfiles =>
    have hsorted : ((.start files.length : Summary).sorted).failed = [] := List.mergeSort_nil
    refine ⟨rfl, .start 0, rfl, ?_, rfl, hsorted.symm⟩
    rw [hfiles]
    rfl
  | ran _ _ _ => exact ⟨rfl, _, rfl, rfl, rfl, rfl⟩

theorem close_failure_eq_none {s : Summary} (h : done.summary = some s) :
    (r.close done).failure = none ↔ done.failure = none ∧ s.failed = [] := by
  have hclose : (r.close done).failure = (done.failure <|> s.failure?) := by
    rw [Runner.close, h]
  rw [hclose, Summary.failure?]
  cases done.failure with
  | none =>
    cases s.failed with
    | nil => simp
    | cons f fs => simp
  | some f => simp

/-- A batch fails exactly if it left out files. -/
theorem Ends.failure_ne_none (h : Ends r exports input state files p done) :
    done.failure ≠ none ↔ 0 < p.course.skipped := by
  obtain ⟨endings, hp⟩ := h.settled
  obtain ⟨hfailure, -⟩ := h.result
  rw [hfailure, hp.failure]
  by_cases hzero : p.course.skipped = 0
  · simp [hzero]
  · simp [hzero, Nat.pos_iff_ne_zero]

/-- What the runner gives, with one file after another, is one of the ways in which the batch can end. -/
theorem run_ends {t : FileTree} {cwd : Place} (hplace : 0 < r.concurrency)
    (hfiles : discover t cwd input r.extensions r.exclude = .ok files) (exporting : Exporting σ)
    (cancellation : Cancellation) (state : σ) :
    ∃ p, p.course = r.runFiles exporting cancellation state files ∧
      Ends r (Pool.byFunction exporting) input state files p
        (r.run (some exporting) cancellation state t cwd input) := by
  cases files with
  | nil =>
    have hrun : r.run (some exporting) cancellation state t cwd input =
        Runner.nothingFound state input := by
      rw [Runner.run, hfiles]
    rw [hrun]
    exact ⟨_, rfl, .empty cancellation.before rfl⟩
  | cons file files =>
    have hstart : (Pool.start r cancellation.before state (file :: files)).workers =
        [] ++ (file :: files).map (·, .waiting) := rfl
    obtain ⟨p, hsteps, hfinal, hcourse⟩ := Pool.steps_files exporting cancellation hplace hstart
      fun w hw => absurd hw List.not_mem_nil
    have hrun : r.run (some exporting) cancellation state t cwd input = r.conclude p.course := by
      rw [hcourse, Runner.run, hfiles]
      rfl
    rw [hrun]
    exact ⟨p, hcourse, .ran (List.cons_ne_nil _ _) hsteps hfinal⟩

theorem run_failure_ne_none {t : FileTree} {cwd : Place} (hplace : 0 < r.concurrency)
    (hfiles : discover t cwd input r.extensions r.exclude = .ok files) (exporting : Exporting σ)
    (cancellation : Cancellation) (state : σ) :
    (r.run (some exporting) cancellation state t cwd input).failure ≠ none ↔
      0 < (r.runFiles exporting cancellation state files).skipped := by
  obtain ⟨p, hcourse, hends⟩ := run_ends hplace hfiles exporting cancellation state
  rw [hends.failure_ne_none, hcourse]

/-- However its workers take turns and whenever it is cancelled, a batch exports no file twice, every file
ends in exactly one way, the counts of the summary and the bar agree and add up to the number of files, the
failed files are listed once each in order, and the batch fails exactly if files were left out.  So does the
runner, which takes one file after another. -/
theorem batch_accounts {t : FileTree} {cwd : Place} (ht : t.WellFormed)
    (hfiles : discover t cwd input r.extensions r.exclude = .ok files)
    (hends : Ends r exports input state files p done) :
    p.called.Nodup ∧ p.called ⊆ files ∧
    (∀ file ∈ files,
      (p.Succeeded file ∨ p.Failed file ∨ p.Skipped file) ∧ ¬ (p.Succeeded file ∧ p.Failed file) ∧
        ¬ (p.Succeeded file ∧ p.Skipped file) ∧ ¬ (p.Failed file ∧ p.Skipped file)) ∧
    ∃ s, done.summary = some s ∧
      s.total = files.length ∧
      s.succeeded + s.failed.length + p.course.skipped = s.total ∧
      s.succeeded = (p.returned.countP fun e => e.2.isOk) ∧
      p.course.skipped = (files.countP fun file => decide (file ∉ p.called)) ∧
      (∀ file f, ⟨file, f⟩ ∈ s.failed ↔ (file, .error f) ∈ p.returned) ∧
      (s.failed.Pairwise fun a b => Utf8.encode a.path < Utf8.encode b.path) ∧
      p.course.bar.current = s.succeeded + s.failed.length ∧
      p.course.bar.failed = s.failed.length ∧
      (done.failure ≠ none ↔ 0 < p.course.skipped) ∧
      (0 < p.course.skipped → p.course.cancelled = true) ∧
      ((r.close done).failure = none ↔ p.course.skipped = 0 ∧ s.failed = []) ∧
      (0 < r.concurrency → ∀ exporting cancellation,
        (r.run (some exporting) cancellation state t cwd input).failure ≠ none ↔
          0 < (r.runFiles exporting cancellation state files).skipped) := by
  obtain ⟨endings, hp⟩ := hends.settled
  obtain ⟨-, s, hsummary, htotal, hsucceeded, hfailed⟩ := hends.result
  have hnodup : files.Nodup := (discover_increasing ht hfiles).imp fun hlt he => by
    rw [he] at hlt
    exact String.lt_irrefl _ hlt
  have hperm : s.failed.Perm p.course.summary.failed := by
    rw [hfailed]
    exact List.mergeSort_perm _ _
  have hnone : done.failure = none ↔ p.course.skipped = 0 := by
    have hfails := hends.failure_ne_none
    rw [Nat.pos_iff_ne_zero, not_iff_not] at hfails
    exact hfails
  refine ⟨hp.nodup_called hnodup, hp.called_subset, fun file _ => hp.one_outcome hnodup file, s,
    hsummary, ?_, ?_, ?_, hp.skipped_eq hnodup, ?_, ?_, ?_, ?_, hends.failure_ne_none, ?_, ?_, ?_⟩
  · rw [htotal, hp.total]
  · rw [hsucceeded, hperm.length_eq, hp.sum, htotal, hp.total]
  · rw [hsucceeded, hp.succeeded, hp.returned.countP_eq]
  · intro file f
    rw [hperm.mem_iff, hp.mem_failed_iff]
  · rw [hfailed]
    exact hp.sorted_failed hnodup
  · rw [hp.current, hsucceeded, hp.succeeded, hperm.length_eq, hp.failed.length_eq,
      ← countP_add_length_failed endings]
    push_cast
    rfl
  · rw [hp.missed, hperm.length_eq, hp.failed.length_eq]
  · exact fun hpos => hp.cancelled (Nat.pos_iff_ne_zero.mp hpos)
  · rw [close_failure_eq_none hsummary, hnone]
  · exact fun hplace exporting cancellation =>
      run_failure_ne_none hplace hfiles exporting cancellation state

end

-- Two sources, of which one fails.
def twoSources : FileTree :=
  ((FileTree.empty.insert ["in"] .directory).insert ["in", "A.sol"] (.file [] false)).insert
    ["in", "B.sol"] (.file [] false)

theorem wellFormed_twoSources : twoSources.WellFormed := by decide

theorem discover_twoSources :
    discover twoSources [] "in" [".sol"] [] = .ok ["in/A.sol", "in/B.sol"] := by
  have hfound : gather twoSources [] "in" [".sol"] [] = .ok ["in/A.sol", "in/B.sol"] := by decide
  rw [discover_of_gather hfound, List.mergeSort_of_pairwise (by decide)]

def exportingFirst : Exporting Unit := fun _ file =>
  ⟨if file = "in/A.sol" then .ok "out/A_ast.json" else .error (.told "rejected"), (), []⟩

theorem batch_accounts_twoSources :
    ∃ p s, Ends (Runner.new 2) (Pool.byFunction exportingFirst) "in" () ["in/A.sol", "in/B.sol"] p
        ((Runner.new 2).run (some exportingFirst) .never () twoSources [] "in") ∧
      ((Runner.new 2).run (some exportingFirst) .never () twoSources [] "in").summary = some s ∧
      s.succeeded + s.failed.length + p.course.skipped = 2 := by
  have hfiles : discover twoSources [] "in" (Runner.new 2).extensions (Runner.new 2).exclude =
      .ok ["in/A.sol", "in/B.sol"] := discover_twoSources
  have hplace : 0 < (Runner.new 2).concurrency := by decide
  obtain ⟨p, -, hends⟩ := run_ends hplace hfiles exportingFirst .never ()
  obtain ⟨-, -, -, s, hsummary, htotal, hsum, -⟩ := batch_accounts wellFormed_twoSources hfiles hends
  exact ⟨p, s, hends, hsummary, hsum.trans htotal⟩

end SolidityAst.Batch
