import Mathlib.Data.Multiset.Basic
import Mathlib.Tactic.Choose
import SolidityAst.Proofs.Batch.Accounting
import SolidityAst.Proofs.Export.Independence

/-!
The schedule of a batch does not show in what it leaves.

The exports of a batch share the tree, and directories that several of them need are made by whichever
comes first.  Still the fate of every file is told by the tree before the batch, as long as the artifacts
do not stand in each other's way or in the way of a source.  What all exports together leave is made up
of the fates of the files, so that it is the same for every order, and for any number of workers.
-/
namespace SolidityAst.Batch

open FileTree Export SolidityAst.Path

/-! ## Trees that grow -/

/-- The second tree is the first with files put at places, and with the directories made that were missing
above them. -/
structure Grown (t₀ t : FileTree) (changes : List (Place × Bytes)) : Prop where
  wellFormed : t.WellFormed
  placed : ∀ c ∈ changes, t.get? c.1 = some (.file c.2 false)
  opened : ∀ q, (∀ c ∈ changes, q ≠ c.1) → (∃ c ∈ changes, q <+: c.1) → t₀.get? q = none →
    t.get? q = some .directory
  others : ∀ q, (∀ c ∈ changes, q ≠ c.1) → ((∃ c ∈ changes, q <+: c.1) → t₀.get? q ≠ none) →
    t.get? q = t₀.get? q

section

variable {t₀ t t' : FileTree} {changes changes' : List (Place × Bytes)} {place : Place} {content : Bytes}

theorem Grown.refl (ht : t.WellFormed) : Grown t t [] where
  wellFormed := ht
  placed := fun _ hc => nomatch hc
  opened := fun _ _ ⟨_, hc, _⟩ => nomatch hc
  others := fun _ _ _ => rfl

theorem Grown.cases (h : Grown t₀ t changes) (q : Place) :
    (∃ c ∈ changes, q = c.1) ∨ t.get? q = t₀.get? q ∨
      t₀.get? q = none ∧ t.get? q = some .directory := by
  by_cases hq : ∀ c ∈ changes, q ≠ c.1
  · by_cases hopen : (∃ c ∈ changes, q <+: c.1) ∧ t₀.get? q = none
    · exact .inr (.inr ⟨hopen.2, h.opened q hq hopen.1 hopen.2⟩)
    · exact .inr (.inl (h.others q hq fun habove hnone => hopen ⟨habove, hnone⟩))
  · push Not at hq
    exact .inl hq

/-- One more file is put into a tree that has grown. -/
theorem Grown.put (h : Grown t₀ t changes) (hp : Placed t t' place content)
    (hnew : ∀ c ∈ changes, c.1 ≠ place) : Grown t₀ t' (changes ++ [(place, content)]) where
  wellFormed := hp.wellFormed
  placed := by
    intro c hc
    rw [hp.nodes]
    rcases List.mem_append.mp hc with hc | hc
    · rw [if_neg (hnew c hc), if_neg (by rw [h.placed c hc]; simp), h.placed c hc]
    · rw [List.mem_singleton.mp hc, if_pos rfl]
  opened := by
    intro q hq habove hnone
    have hold : ∀ c ∈ changes, q ≠ c.1 := fun c hc => hq c (List.mem_append_left _ hc)
    rw [hp.nodes, if_neg (hq (place, content) (by simp))]
    -- The directory is there already, or it is above the new file.
    by_cases hthere : ∃ c ∈ changes, q <+: c.1
    · rw [h.opened q hold hthere hnone]
      simp
    · obtain ⟨c, hc, hpre⟩ := habove
      rcases List.mem_append.mp hc with hc | hc
      · exact absurd ⟨c, hc, hpre⟩ hthere
      · rw [List.mem_singleton.mp hc] at hpre
        rw [h.others q hold fun habove => absurd habove hthere, if_pos ⟨hpre, hnone⟩]
  others := by
    intro q hq habove
    have hold : ∀ c ∈ changes, q ≠ c.1 := fun c hc => hq c (List.mem_append_left _ hc)
    have hsame : t.get? q = t₀.get? q :=
      h.others q hold fun ⟨c, hc, hpre⟩ => habove ⟨c, List.mem_append_left _ hc, hpre⟩
    rw [hp.nodes, if_neg (hq (place, content) (by simp)), hsame, if_neg]
    rintro ⟨hpre, hnone⟩
    exact habove ⟨(place, content), by simp, hpre⟩ hnone

/-- The order in which files are put into a tree does not show. -/
theorem Grown.eq_of_perm (h : Grown t₀ t changes) (h' : Grown t₀ t' changes')
    (hperm : changes.Perm changes') : t = t' := by
  refine h.wellFormed.ext h'.wellFormed fun q => ?_
  -- What is at a place depends on which changes there are, and not on their order.
  by_cases hq : ∃ c ∈ changes, q = c.1
  · obtain ⟨c, hc, rfl⟩ := hq
    rw [h.placed c hc, h'.placed c (hperm.mem_iff.mp hc)]
  push Not at hq
  have hq' : ∀ c ∈ changes', q ≠ c.1 := fun c hc => hq c (hperm.mem_iff.mpr hc)
  by_cases hopen : (∃ c ∈ changes, q <+: c.1) ∧ t₀.get? q = none
  · obtain ⟨⟨c, hc, hpre⟩, hnone⟩ := hopen
    rw [h.opened q hq ⟨c, hc, hpre⟩ hnone,
      h'.opened q hq' ⟨c, hperm.mem_iff.mp hc, hpre⟩ hnone]
  · rw [h.others q hq fun habove hnone => hopen ⟨habove, hnone⟩, h'.others q hq']
    rintro ⟨c, hc, hpre⟩ hnone
    exact hopen ⟨⟨c, hperm.mem_iff.mpr hc, hpre⟩, hnone⟩

theorem Grown.noLinks (h : Grown t₀ t changes) (hlinks : NoLinks t₀) : NoLinks t := by
  intro q target
  rcases h.cases q with ⟨c, hc, rfl⟩ | hsame | ⟨-, hdir⟩
  · rw [h.placed c hc]
    simp
  · rw [hsame]
    exact hlinks q target
  · rw [hdir]
    simp

theorem Grown.get?_of_some (h : Grown t₀ t changes) {q : Place} (hq : ∀ c ∈ changes, q ≠ c.1)
    (hsome : t₀.get? q ≠ none) : t.get? q = t₀.get? q :=
  h.others q hq fun _ => hsome

/-- Other exports do not disturb one whose source they do not write and whose target is neither above nor
below theirs. -/
theorem Grown.undisturbed {cwd source : Place} {target : Option Place} (h : Grown t₀ t changes)
    (hlinks : NoLinks t₀) (hcwd : t₀.get? cwd = some .directory) (hsource : t₀.get? source ≠ none)
    (hnot : ∀ c ∈ changes, t₀.get? c.1 ≠ some .directory) (helse : ∀ c ∈ changes, source ≠ c.1)
    (hunnested : ∀ p ∈ target, ∀ c ∈ changes, ¬ p <+: c.1 ∧ ¬ c.1 <+: p) :
    Undisturbed t₀ t cwd source target where
  wellFormed := h.wellFormed
  noLinks := h.noLinks hlinks
  directory := by
    rw [h.get?_of_some _ (by rw [hcwd]; simp), hcwd]
    rintro c hc rfl
    exact hnot c hc hcwd
  sourceKept := h.get?_of_some helse hsource
  targetKept := by
    intro p hp
    have hapart : ∀ c ∈ changes, ¬ p <+: c.1 := fun c hc => (hunnested p hp c hc).1
    refine h.others p (fun c hc heq => hapart c hc ?_) fun ⟨c, hc, hpre⟩ => absurd hpre (hapart c hc)
    exact heq ▸ List.prefix_refl p
  aboveKept := by
    intro p hp q hq
    rcases h.cases q with ⟨c, hc, rfl⟩ | hkept
    · exact absurd hq (hunnested p hp c hc).2
    · exact hkept

end

/-! ## Exports one after another -/

/-- Exports are carried out one after another, and the log tells how each of them ended. -/
inductive Carried {σ : Type} (exports : Exports σ) (state : σ) : List Ending → σ → Prop
  | nil : Carried exports state [] state
  | snoc {log : List Ending} {s : σ} {file : String} {done : Exported σ}
      (h : Carried exports state log s) (hdone : exports s file done) :
      Carried exports state (log ++ [(file, done.outcome)]) done.state

section

variable {σ : Type} {r : Runner} {exports : Exports σ} {state : σ} {p q : Pool σ}

-- Of the steps of a pool, the return of an export is the only one that changes the state.
theorem Carried.step (h : Carried exports state p.returned p.course.state)
    (hstep : Pool.Step r exports p q) : Carried exports state q.returned q.course.state := by
  cases hstep with
  | ret _ hdone => exact h.snoc hdone
  | cancel => exact h
  | start _ _ _ => exact h
  | stop _ _ => exact h
  | call _ _ => exact h
  | record _ => exact h
  | announce _ => exact h
  | count _ => exact h

/-- Whatever the workers of a pool do, its exports were carried out one after another. -/
theorem carried_of_steps {cancelled : Bool} {files : List String}
    (h : Pool.Steps r exports (Pool.start r cancelled state files) p) :
    Carried exports state p.returned p.course.state := by
  induction h with
  | refl => exact .nil
  | tail _ hstep ih => exact ih.step hstep

-- The workers take their turns in the order of the log.
theorem Carried.exists_steps {log : List Ending} {s : σ} (h : Carried exports state log s)
    (hplace : 0 < r.concurrency) {files rest : List String} (hfiles : files = log.map Prod.fst ++ rest) :
    ∃ p before, Pool.Steps r exports (Pool.start r false state files) p ∧
      p.workers = before ++ rest.map (·, .waiting) ∧ (∀ w ∈ before, w.2.Ended) ∧
      p.course.state = s ∧ p.course.cancelled = false ∧ p.course.skipped = 0 := by
  induction h generalizing rest with
  | nil =>
    rw [List.map_nil, List.nil_append] at hfiles
    rw [hfiles]
    exact ⟨_, [], .refl, rfl, (fun _ hw => nomatch hw), rfl, rfl, rfl⟩
  | @snoc log s file done _ hdone ih =>
    rw [List.map_append, List.map_singleton, List.append_assoc, List.singleton_append] at hfiles
    obtain ⟨p, before, hsteps, hworkers, hended, rfl, hcancelled, hskipped⟩ := ih hfiles
    rw [List.map_cons] at hworkers
    have hstarted := hsteps.trans (Pool.steps_start hplace hworkers hended (by simp))
    obtain ⟨q, hexported, hq, hcourse⟩ := Pool.steps_export (r := r)
      (p := { p with workers := before ++ (file, .started) :: rest.map (·, .waiting) })
      rfl hcancelled hdone
    refine ⟨q, before ++ [(file, .finished done.outcome)], hstarted.trans hexported, ?_, ?_, ?_, ?_, ?_⟩
    · rw [hq, List.append_assoc, List.singleton_append]
    · intro w hw
      rcases List.mem_append.mp hw with hw | hw
      · exact hended w hw
      · rw [List.mem_singleton.mp hw]
        exact .inr ⟨_, rfl⟩
    · rw [hcourse]
      rfl
    · rw [hcourse]
      exact hcancelled
    · rw [hcourse]
      exact hskipped

/-- Exports that can be carried out one after another can be carried out by a pool. -/
theorem Carried.exists_ends {log : List Ending} {s : σ} (h : Carried exports state log s)
    (hplace : 0 < r.concurrency) (input : String) :
    ∃ p done, Ends r exports input state (log.map Prod.fst) p done ∧ p.course.skipped = 0 := by
  by_cases hlog : log.map Prod.fst = []
  · exact ⟨_, _, .empty false hlog, rfl⟩
  · obtain ⟨p, before, hsteps, hworkers, hended, -, -, hskipped⟩ :=
      h.exists_steps hplace (List.append_nil _).symm
    rw [List.map_nil, List.append_nil] at hworkers
    rw [← hworkers] at hended
    exact ⟨p, _, .ran hlog hsteps hended, hskipped⟩

theorem Ends.carried {input : String} {files : List String} {done : Finished σ}
    (h : Ends r exports input state files p done) :
    done.state = p.course.state ∧ Carried exports state p.returned p.course.state := by
  cases h with
  | empty cancelled hfiles => exact ⟨rfl, .nil⟩
  | ran _ hsteps _ => exact ⟨rfl, carried_of_steps hsteps⟩

end

/-- What an export leaves to a batch that keeps the entries of the ledger. -/
def exportedBy (ledger : List Ledger.Entry) (o : Outcome) : Exported (FileTree × List Ledger.Entry) :=
  ⟨o.result.map (·.output), (o.tree, ledger ++ o.entries), o.events⟩

/-- The exports of an exporter.  The state is the tree and what was recorded so far; the temporary file may
have any tag that can be used. -/
def byExporter (e : Exporter) (cwd : Place) (input output : String) :
    Exports (FileTree × List Ledger.Entry) := fun state file done =>
  ∃ tag, Usable e cwd input output file state.1 tag ∧
    done = exportedBy state.2 (e.exportFile ⟨cwd, tag⟩ state.1 file input output)

/-- The artifacts of a batch are at different places, none of them above another, and none is at the place
of a source. -/
structure Apart (e : Exporter) (cwd : Place) (input output : String) (files : List String) : Prop where
  different : ∀ a ∈ files, ∀ b ∈ files, ∀ p ∈ outputPlace e cwd input output a,
    p ∈ outputPlace e cwd input output b → a = b
  unnested : ∀ a ∈ files, ∀ b ∈ files, ∀ p ∈ outputPlace e cwd input output a,
    ∀ q ∈ outputPlace e cwd input output b, p <+: q → p = q
  elsewhere : ∀ a ∈ files, ∀ b ∈ files, placeOf cwd b ∉ outputPlace e cwd input output a

/-- The fates of the files of a batch are told by the tree before it. -/
structure Destined (t₀ : FileTree) (e : Exporter) (cwd : Place) (input output : String)
    (files : List String) (fate : String → Fate) : Prop where
  wellFormed : t₀.WellFormed
  noLinks : NoLinks t₀
  directory : t₀.get? cwd = some .directory
  sources : ∀ file ∈ files, t₀.get? (placeOf cwd file) ≠ none
  fates : ∀ file ∈ files, (fate file).IsOf t₀ e cwd input output file
  apart : Apart e cwd input output files

/-- What exports have left so far is made up of the fates of their files. -/
structure Foretold (t₀ : FileTree) (fate : String → Fate) (log : List Ending)
    (state : FileTree × List Ledger.Entry) : Prop where
  tree : Grown t₀ state.1 ((log.map Prod.fst).filterMap fun file => (fate file).change)
  entries : state.2.map maskedEntry = (log.map Prod.fst).flatMap fun file => (fate file).entries
  outcomes : ∀ x ∈ log, maskedOutcome x.2 = (fate x.1).outcome

section

variable {t₀ : FileTree} {e : Exporter} {cwd : Place} {input output : String} {files : List String}
  {fate : String → Fate} {log : List Ending} {state : FileTree × List Ledger.Entry} {file : String}

-- What was put into the tree before the turn of a file is the artifact of another.
theorem Destined.of_mem_changes (hd : Destined t₀ e cwd input output files fate)
    (hlog : log.map Prod.fst ⊆ files) (hnew : file ∉ log.map Prod.fst) {c : Place × Bytes}
    (hc : c ∈ (log.map Prod.fst).filterMap fun file => (fate file).change) :
    ∃ other ∈ files, other ≠ file ∧ c.1 ∈ outputPlace e cwd input output other ∧
      t₀.get? c.1 ≠ some .directory := by
  obtain ⟨other, hmem, hchange⟩ := List.mem_filterMap.mp hc
  obtain ⟨hplace, hnot⟩ := (hd.fates other (hlog hmem)).change c hchange
  refine ⟨other, hlog hmem, ?_, hplace, hnot⟩
  rintro rfl
  exact hnew hmem

namespace Foretold

variable (h : Foretold t₀ fate log state) (hd : Destined t₀ e cwd input output files fate)
  (hlog : log.map Prod.fst ⊆ files) (hfile : file ∈ files) (hnew : file ∉ log.map Prod.fst)

include h hd hlog hfile hnew

theorem undisturbed :
    Undisturbed t₀ state.1 cwd (placeOf cwd file) (outputPlace e cwd input output file) := by
  -- Each change is the artifact of another file, from which this file's source and target are apart.
  refine h.tree.undisturbed hd.noLinks hd.directory (hd.sources file hfile) ?_ ?_ ?_
  · intro c hc
    obtain ⟨_, _, _, _, hnot⟩ := hd.of_mem_changes hlog hnew hc
    exact hnot
  · rintro c hc heq
    obtain ⟨other, hother, -, hplace, -⟩ := hd.of_mem_changes hlog hnew hc
    rw [← heq] at hplace
    exact hd.apart.elsewhere other hother file hfile hplace
  · intro p hp c hc
    obtain ⟨other, hother, hne, hplace, -⟩ := hd.of_mem_changes hlog hnew hc
    have hdifferent : p ≠ c.1 := by
      rintro rfl
      exact hne (hd.apart.different other hother file hfile _ hplace hp)
    exact ⟨fun hpre => hdifferent (hd.apart.unnested file hfile other hother p hp _ hplace hpre),
      fun hpre => hdifferent (hd.apart.unnested other hother file hfile _ hplace p hp hpre).symm⟩

/-- One more export keeps to the fate of its file. -/
theorem step {done : Exported (FileTree × List Ledger.Entry)}
    (hdone : byExporter e cwd input output state file done) :
    Foretold t₀ fate (log ++ [(file, done.outcome)]) done.state := by
  obtain ⟨tag, husable, rfl⟩ := hdone
  have hmet := (hd.fates file hfile).met (h.undisturbed hd hlog hfile hnew) husable
  refine ⟨?_, ?_, ?_⟩
  · -- The tree stays as it is, or gets one file at a place where no other export puts one.
    rw [List.map_append, List.map_singleton, List.filterMap_append, exportedBy]
    cases hchange : (fate file).change with
    | none =>
      rw [List.filterMap_cons_none (f := fun file => (fate file).change) hchange, List.filterMap_nil,
        List.append_nil, hmet.stays hchange]
      exact h.tree
    | some c =>
      rw [List.filterMap_cons_some (f := fun file => (fate file).change) hchange, List.filterMap_nil]
      refine h.tree.put (hmet.changes c hchange) fun c' hc' heq => ?_
      obtain ⟨other, hother, hne, hplace, -⟩ := hd.of_mem_changes hlog hnew hc'
      rw [heq] at hplace
      exact hne (hd.apart.different other hother file hfile _ hplace
        ((hd.fates file hfile).change c hchange).1)
  · rw [exportedBy, List.map_append, h.entries, hmet.entries, List.map_append, List.map_singleton,
      List.flatMap_append, List.flatMap_singleton]
  · intro x hx
    rcases List.mem_append.mp hx with hx | hx
    · exact h.outcomes x hx
    · rw [List.mem_singleton.mp hx]
      exact hmet.outcome

end Foretold

/-- Exports of different files keep to the fates of the files. -/
theorem Carried.foretold (hd : Destined t₀ e cwd input output files fate)
    (h : Carried (byExporter e cwd input output) (t₀, []) log state)
    (hnodup : (log.map Prod.fst).Nodup) (hlog : log.map Prod.fst ⊆ files) :
    Foretold t₀ fate log state := by
  induction h with
  | nil => exact ⟨.refl hd.wellFormed, rfl, fun _ hx => nomatch hx⟩
  | @snoc log s file done _ hdone ih =>
    rw [List.map_append, List.map_singleton] at hnodup hlog
    have hold : log.map Prod.fst ⊆ files := fun x hx => hlog (List.mem_append_left _ hx)
    have hfile : file ∈ files := hlog (by simp)
    have hnew : file ∉ log.map Prod.fst := fun hmem =>
      (List.nodup_append.mp hnodup).2.2 file hmem file (by simp) rfl
    exact (ih (List.nodup_append.mp hnodup).1 hold).step hd hold hfile hnew hdone

/-- Files can be exported in every order. -/
theorem exists_carried (hd : Destined t₀ e cwd input output files fate) {order : List String}
    (hnodup : order.Nodup) (horder : order ⊆ files) :
    ∃ log state, Carried (byExporter e cwd input output) (t₀, []) log state ∧
      log.map Prod.fst = order := by
  induction order using List.reverseRecOn with
  | nil => exact ⟨[], _, .nil, rfl⟩
  | append_singleton order file ih =>
    have hold : order ⊆ files := fun x hx => horder (List.mem_append_left _ hx)
    have hnew : file ∉ order := fun hmem => (List.nodup_append.mp hnodup).2.2 file hmem file (by simp) rfl
    obtain ⟨log, state, hcarried, rfl⟩ := ih (List.nodup_append.mp hnodup).1 hold
    -- The tree that the earlier exports left has no links either, so there is a tag for one more.
    have hforetold := hcarried.foretold hd (List.nodup_append.mp hnodup).1 hold
    have hu := hforetold.undisturbed hd hold (horder (by simp)) hnew
    obtain ⟨tag, husable⟩ := exists_usable e input output file hu.wellFormed hu.noLinks hu.directory
    refine ⟨_, _, hcarried.snoc ⟨tag, husable, rfl⟩, ?_⟩
    rw [List.map_append, List.map_singleton]

end

/-! ## What can be seen -/

/-- What a batch leaves, except for what a tag or the order could show in. -/
structure View where
  tree : FileTree
  succeeded : Nat
  /-- The files that failed, in order, with their masked texts. -/
  failed : List (String × String)
  entries : Multiset Ledger.Entry

def seenFailure (f : FailedFile) : String × String := (f.path, mask f.failure.message)

/-- What can be seen of a state and a summary. -/
def view (state : FileTree × List Ledger.Entry) (s : Summary) : View :=
  ⟨state.1, s.succeeded, s.failed.map seenFailure, state.2.map maskedEntry⟩

/-- The sorted summary of a log. -/
structure Sums (s : Summary) (log : List Ending) : Prop where
  succeeded : s.succeeded = log.countP (·.2.isOk)
  failed : s.failed.Perm (log.filterMap failedFile?)
  sorted : s.failed.Pairwise fun a b => a.path < b.path

theorem sums_of_perm {s : Summary} {log : List Ending} (hnodup : (log.map Prod.fst).Nodup)
    (hsucceeded : s.succeeded = log.countP (·.2.isOk)) (hfailed : s.failed.Perm (log.filterMap failedFile?)) :
    Sums s.sorted log where
  succeeded := hsucceeded
  failed := (List.mergeSort_perm _ _).trans hfailed
  sorted := pairwise_lt_mergeSort FailedFile.path
    ((hfailed.pairwise_iff fun hne => Ne.symm hne).mpr (distinct_failed hnodup))

theorem sums_foldl {log : List Ending} (hnodup : (log.map Prod.fst).Nodup) (total : Nat) :
    Sums (log.foldl noted (.start total)).sorted log := by
  obtain ⟨-, hsucceeded, hfailed⟩ := foldl_noted log (.start total)
  refine sums_of_perm hnodup (hsucceeded.trans (Nat.zero_add _)) ?_
  rw [hfailed]
  exact List.Perm.refl _

section

variable {σ : Type} {r : Runner} {exports : Exports σ} {input : String} {state : σ} {files : List String}
  {p : Pool σ} {done : Finished σ}

theorem Ends.sums (hends : Ends r exports input state files p done) (hfiles : files.Nodup) :
    (p.returned.map Prod.fst).Nodup ∧ ∃ s, done.summary = some s ∧ Sums s p.returned := by
  obtain ⟨endings, hp⟩ := hends.settled
  obtain ⟨-, s, hsummary, -, hsucceeded, hfailed⟩ := hends.result
  have hnodup : (p.returned.map Prod.fst).Nodup :=
    (hp.returned.map Prod.fst).nodup_iff.mpr (hp.names.nodup hfiles)
  have hsums : Sums p.course.summary.sorted p.returned :=
    sums_of_perm hnodup (hp.succeeded.trans (hp.returned.countP_eq _).symm)
      (hp.failed.trans (hp.returned.filterMap _).symm)
  refine ⟨hnodup, s, hsummary, hsucceeded.trans hsums.succeeded, ?_, ?_⟩
  · rw [hfailed]
    exact hsums.failed
  · rw [hfailed]
    exact hsums.sorted

/-- Unless files were skipped, all of them were exported. -/
theorem Ends.returned_perm (hends : Ends r exports input state files p done)
    (hskipped : p.course.skipped = 0) : (p.returned.map Prod.fst).Perm files := by
  obtain ⟨endings, hp⟩ := hends.settled
  have hlength := hp.length
  rw [hskipped, Nat.add_zero] at hlength
  have hall : endings.map Prod.fst = files :=
    hp.names.eq_of_length (by rw [List.length_map, hlength])
  rw [← hall]
  exact hp.returned.map Prod.fst

end

/-- The failure in the fate of a file. -/
def foretoldFailure? (fate : String → Fate) (file : String) : Option (String × String) :=
  match (fate file).outcome with
  | .error text => some (file, text)
  | .ok _ => none

section

variable {t₀ : FileTree} {fate : String → Fate} {log log' : List Ending}
  {state state' : FileTree × List Ledger.Entry} {s s' : Summary}

theorem Foretold.countP_isOk (h : Foretold t₀ fate log state) :
    log.countP (·.2.isOk) = (log.map Prod.fst).countP fun file => (fate file).outcome.isOk := by
  rw [List.countP_map]
  refine List.countP_congr fun x hx => ?_
  obtain ⟨file, outcome⟩ := x
  have houtcome : maskedOutcome outcome = (fate file).outcome := h.outcomes _ hx
  rw [Function.comp_apply, ← houtcome]
  cases outcome <;> exact Iff.rfl

theorem Foretold.map_failed (h : Foretold t₀ fate log state) :
    (log.filterMap failedFile?).map seenFailure =
      (log.map Prod.fst).filterMap (foretoldFailure? fate) := by
  rw [List.map_filterMap, List.filterMap_map]
  refine List.filterMap_congr fun x hx => ?_
  obtain ⟨file, outcome⟩ := x
  have houtcome : maskedOutcome outcome = (fate file).outcome := h.outcomes _ hx
  rw [Function.comp_apply, foretoldFailure?, ← houtcome]
  cases outcome <;> rfl

/-- What the exports of the same files leave looks the same, in whatever orders they were carried out. -/
theorem Foretold.view_eq (h : Foretold t₀ fate log state) (h' : Foretold t₀ fate log' state')
    (hs : Sums s log) (hs' : Sums s' log') (hperm : (log.map Prod.fst).Perm (log'.map Prod.fst)) :
    view state s = view state' s' := by
  have htree : state.1 = state'.1 := h.tree.eq_of_perm h'.tree (hperm.filterMap _)
  have hsucceeded : s.succeeded = s'.succeeded := by
    rw [hs.succeeded, hs'.succeeded, h.countP_isOk, h'.countP_isOk, hperm.countP_eq]
  have hfailed : s.failed.map seenFailure = s'.failed.map seenFailure := by
    -- The lists have the same members, and both are in the order of the paths.
    have hsorted : ∀ {s : Summary} {log : List Ending}, Sums s log →
        (s.failed.map seenFailure).Pairwise fun a b => a.1 < b.1 :=
      fun hs => List.pairwise_map.mpr hs.sorted
    refine List.Perm.eq_of_pairwise (fun a b _ _ hlt hgt => ?_) (hsorted hs) (hsorted hs') ?_
    · exact absurd hgt (String.lt_asymm hlt)
    · refine (hs.failed.map seenFailure).trans (.trans ?_ (hs'.failed.map seenFailure).symm)
      rw [h.map_failed, h'.map_failed]
      exact hperm.filterMap _
  have hentries : (state.2.map maskedEntry).Perm (state'.2.map maskedEntry) := by
    rw [h.entries, h'.entries]
    exact hperm.flatMap_right _
  rw [view, view, htree, hsucceeded, hfailed, Multiset.coe_eq_coe.mpr hentries]

end

/-! ## Batches -/

section

variable {t : FileTree} {cwd : Place} {input : String} {extensions exclude files : List String}

theorem placeOf_walked (hcwd : ∀ n ∈ cwd, IsName n) {names : List String} (hnames : ∀ n ∈ names, IsName n) :
    placeOf cwd (walked input names) = placeOf cwd input ++ names := by
  by_cases hne : names = []
  · subst hne
    exact (List.append_nil _).symm
  · rw [walked_eq_ofNames input hne hnames]
    exact components_ofNames_append (isAbsolute_ofNames (Cleaned.of_isName hcwd)) hnames

/-- The sources that a search finds are files, at the places that their paths name. -/
theorem source_of_mem (ht : t.WellFormed) (hlinks : NoLinks t) (hcwd : t.get? cwd = some .directory)
    (hfiles : discover t cwd input extensions exclude = .ok files) {file : String} (hf : file ∈ files) :
    ∃ rooted ns, Cleaned rooted ns ∧ file = ofNames rooted ns ∧
      ∃ content executable, t.get? (placeOf cwd file) = some (.file content executable) := by
  have hnames : ∀ n ∈ cwd, IsName n := ht.isName_of_get? (by rw [hcwd]; simp)
  obtain ⟨names, node, hmet, hwanted, rfl⟩ := (mem_discover ht hfiles file).mp hf
  obtain ⟨d, b, rfl⟩ := (List.eq_nil_or_concat' names).resolve_left hwanted.ne_nil
  have hall := hmet.isName ht
  have hpath := walked_eq_ofNames input (by simp) hall
  obtain ⟨place, hlook, hget⟩ := hmet.exists_listed
  have hplace : placeOf cwd (walked input (d ++ [b])) = place ++ [b] := by
    have hd : ∀ n ∈ d, IsName n := fun n hn => hall n (List.mem_append_left _ hn)
    rw [look_eq_placeOf hlinks hnames hlook, placeOf_walked hnames hall, placeOf_walked hnames hd,
      List.append_assoc]
  refine ⟨isAbsolute input, cleanNames input ++ (d ++ [b]), (cleaned_cleanNames input).append hall, hpath, ?_⟩
  rw [hplace]
  exact exists_file hlinks hget (by simp [hwanted.1])

theorem exists_destined (ht : t.WellFormed) (hlinks : NoLinks t) (hcwd : t.get? cwd = some .directory)
    (hfiles : discover t cwd input extensions exclude = .ok files) {e : Exporter} {output : String}
    (hapart : Apart e cwd input output files) :
    ∃ fate, Destined t e cwd input output files fate := by
  have hexists : ∀ file ∈ files, ∃ fate : Fate, fate.IsOf t e cwd input output file := by
    intro file hf
    obtain ⟨rooted, ns, hcleaned, rfl, content, executable, hget⟩ := source_of_mem ht hlinks hcwd hfiles hf
    exact exists_fate ht hcwd e input output hcleaned hget
  choose! fate hfate using hexists
  refine ⟨fate, ht, hlinks, hcwd, fun file hf => ?_, hfate, hapart⟩
  obtain ⟨_, _, _, _, content, executable, hget⟩ := source_of_mem ht hlinks hcwd hfiles hf
  rw [hget]
  simp

/-- If artifacts do not stand in the way of each other or of sources, then every order in which the sources
are exported, one after another or by workers of any number, leaves the same: the same tree, the same count
of successes, the same failed files with the same texts, and the same ledger entries. -/
theorem schedule_does_not_show (ht : t.WellFormed) (hlinks : NoLinks t)
    (hcwd : t.get? cwd = some .directory)
    (hfiles : discover t cwd input extensions exclude = .ok files) (e : Exporter) (output : String)
    (hapart : Apart e cwd input output files) :
    ∃ seen : View,
      (∀ order, order.Perm files → ∃ log state,
        Carried (byExporter e cwd input output) (t, []) log state ∧ log.map Prod.fst = order) ∧
      (∀ log state, Carried (byExporter e cwd input output) (t, []) log state →
        (log.map Prod.fst).Perm files →
        view state (log.foldl noted (.start files.length)).sorted = seen) ∧
      ∀ r : Runner,
        (0 < r.concurrency → ∃ p done,
          Ends r (byExporter e cwd input output) input (t, []) files p done ∧ p.course.skipped = 0) ∧
        ∀ p done, Ends r (byExporter e cwd input output) input (t, []) files p done →
          p.course.skipped = 0 → ∃ s, done.summary = some s ∧ view done.state s = seen := by
  obtain ⟨fate, hd⟩ := exists_destined ht hlinks hcwd hfiles hapart
  have hnodup : files.Nodup := (discover_increasing ht hfiles).imp fun hlt he => by
    rw [he] at hlt
    exact String.lt_irrefl _ hlt
  -- All runs are compared with one that goes through the files as they were found.
  obtain ⟨first, end₁, hfirst, hnames⟩ := exists_carried hd hnodup fun _ hx => hx
  have hforetold : ∀ {log state}, Carried (byExporter e cwd input output) (t, []) log state →
      (log.map Prod.fst).Perm files → Foretold t fate log state :=
    fun hcarried hperm => hcarried.foretold hd (hperm.nodup_iff.mpr hnodup) hperm.subset
  have hpermFirst : (first.map Prod.fst).Perm files := by rw [hnames]
  have hseen : ∀ {log state s}, Carried (byExporter e cwd input output) (t, []) log state →
      (log.map Prod.fst).Perm files → Sums s log →
      view state s = view end₁ (first.foldl noted (.start files.length)).sorted :=
    fun hcarried hperm hs => (hforetold hcarried hperm).view_eq (hforetold hfirst hpermFirst) hs
      (sums_foldl (hnames ▸ hnodup) _) (hperm.trans hpermFirst.symm)
  refine ⟨view end₁ (first.foldl noted (.start files.length)).sorted, fun order horder => ?_,
    fun log state hcarried hperm => ?_, fun r => ⟨fun hplace => ?_, ?_⟩⟩
  · exact exists_carried hd (horder.nodup_iff.mpr hnodup) horder.subset
  · exact hseen hcarried hperm (sums_foldl (hperm.nodup_iff.mpr hnodup) _)
  · rw [← hnames]
    exact hfirst.exists_ends hplace input
  · intro p done hends hskipped
    obtain ⟨-, s, hsummary, hsums⟩ := hends.sums hnodup
    obtain ⟨hstate, hcarried⟩ := hends.carried
    refine ⟨s, hsummary, ?_⟩
    rw [hstate]
    exact hseen hcarried (hends.returned_perm hskipped) hsums

end

-- Two sources, and a directory in the place of the second artifact.
def occupiedTarget : FileTree :=
  (twoSources.insert ["out"] .directory).insert ["out", "B_ast.json"] .directory

theorem wellFormed_occupiedTarget : occupiedTarget.WellFormed := by decide

theorem noLinks_occupiedTarget : NoLinks occupiedTarget := noLinks_of_entries (by decide)

theorem discover_occupiedTarget :
    discover occupiedTarget [] "in" [".sol"] [] = .ok ["in/A.sol", "in/B.sol"] := by
  have hfound : gather occupiedTarget [] "in" [".sol"] [] = .ok ["in/A.sol", "in/B.sol"] := by decide
  rw [discover_of_gather hfound, List.mergeSort_of_pairwise (by decide)]

theorem apart_occupiedTarget : Apart sampleExporter [] "in" "out" ["in/A.sol", "in/B.sol"] := by
  have hfirst : outputPlace sampleExporter [] "in" "out" "in/A.sol" = some ["out", "A_ast.json"] := by
    decide
  have hsecond : outputPlace sampleExporter [] "in" "out" "in/B.sol" = some ["out", "B_ast.json"] := by
    decide
  have hsource : placeOf [] "in/A.sol" = ["in", "A.sol"] := by decide
  have hsource' : placeOf [] "in/B.sol" = ["in", "B.sol"] := by decide
  refine ⟨?_, ?_, ?_⟩ <;> simp [hfirst, hsecond, hsource, hsource']

-- The second source is exported first, which changes nothing.
theorem carried_occupiedTarget :
    ∃ log state, Carried (byExporter sampleExporter [] "in" "out") (occupiedTarget, []) log state ∧
      log.map Prod.fst = ["in/B.sol", "in/A.sol"] ∧
      (view state (log.foldl noted (.start 2)).sorted).succeeded = 1 ∧
      (view state (log.foldl noted (.start 2)).sorted).failed =
        [("in/B.sol",
          "failed to finalize output file: rename out/B_ast.json.tmp-* out/B_ast.json: file exists")] ∧
      state.1.get? ["out", "A_ast.json"] = some (.file (encode "  " .null) false) := by
  have htag : IsTag "7" := isTag_of_all (by decide) (by decide)
  have hsecond : Usable sampleExporter [] "in" "out" "in/B.sol" occupiedTarget "7" :=
    usable_of_look "out/B_ast.json" .noEntry htag (by decide) (by decide)
  have hfirst : Usable sampleExporter [] "in" "out" "in/A.sol" occupiedTarget "7" :=
    usable_of_look "out/A_ast.json" .noEntry htag (by decide) (by decide)
  have hstart : Carried (byExporter sampleExporter [] "in" "out") (occupiedTarget, []) [] _ := .nil
  have hrun := hstart.snoc ⟨"7", hsecond, rfl⟩
  have hstate : (exportedBy [] (sampleExporter.exportFile ⟨[], "7"⟩ occupiedTarget "in/B.sol" "in"
      "out")).state = (occupiedTarget, []) := by decide +kernel
  rw [hstate] at hrun
  exact ⟨_, _, hrun.snoc ⟨"7", hfirst, rfl⟩, rfl, by decide +kernel, by decide +kernel, by decide +kernel⟩

theorem schedule_does_not_show_occupiedTarget :
    ∃ seen : View, seen.succeeded = 1 ∧
      seen.failed = [("in/B.sol",
        "failed to finalize output file: rename out/B_ast.json.tmp-* out/B_ast.json: file exists")] ∧
      seen.tree.get? ["out", "A_ast.json"] = some (.file (encode "  " .null) false) ∧
      ∀ r p done, Ends r (byExporter sampleExporter [] "in" "out") "in" (occupiedTarget, [])
          ["in/A.sol", "in/B.sol"] p done →
        p.course.skipped = 0 → ∃ s, done.summary = some s ∧ view done.state s = seen := by
  obtain ⟨seen, -, hseen, hpool⟩ := schedule_does_not_show wellFormed_occupiedTarget noLinks_occupiedTarget
    rfl discover_occupiedTarget sampleExporter "out" apart_occupiedTarget
  obtain ⟨log, state, hcarried, hnames, hsucceeded, hfailed, htree⟩ := carried_occupiedTarget
  have hview := hseen log state hcarried (by rw [hnames]; exact List.Perm.swap _ _ _)
  rw [← hview] at hpool
  exact ⟨_, hsucceeded, hfailed, htree, fun r => (hpool r).2⟩

end SolidityAst.Batch
