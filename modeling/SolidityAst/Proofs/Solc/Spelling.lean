import Mathlib.Data.List.Infix
import Mathlib.Data.List.Sublists
import SolidityAst.Proofs.Solc.Runnable
import SolidityAst.Proofs.Text.Trim

/-!
How versions are spelled, and when normalizing them a second time changes nothing.

Before a version there may be marks: the letter `v` and the comparators.  Normalizing goes through the marks once
and drops each of them where it finds it at the start.  So it ends with the bare version exactly when the marks
stand in the order in which they are dropped, each at most once; from any other text some mark is left, and the
next time it is dropped.  A compiler that is given out under a bare version is found again by that version.
-/
namespace SolidityAst.Solc

open Text

namespace Version

/-- What may stand before a version, in the order in which it is dropped. -/
def marks : List (List Char) := ['v'] :: comparators.map String.toList

/-- Drops each of the marks once, one after the other. -/
def dropMarks (ms : List (List Char)) (cs : List Char) : List Char := ms.foldl (fun cs m => dropStart m cs) cs

/-- No mark stands at the start. -/
def Unmarked (cs : List Char) : Prop := ∀ m ∈ marks, ¬ m <+: cs

/-- A version with nothing around it: no mark before it, and no blank at either end. -/
structure IsBare (v : String) : Prop where
  unmarked : Unmarked v.toList
  first : ∀ c ∈ v.toList.head?, isBlank c = false
  last : ∀ c ∈ v.toList.getLast?, isBlank c = false

/-- What stands around `b` in `v`: some of the marks before it, in their order and each at most once, and blanks
before the marks, behind them and at the end. -/
structure Surrounds (v b : String) (ms : List (List Char)) (front gap back : List Char) : Prop where
  ordered : ms.Sublist marks
  blankFront : ∀ c ∈ front, isBlank c = true
  blankGap : ∀ c ∈ gap, isBlank c = true
  blankBack : ∀ c ∈ back, isBlank c = true
  text : v.toList = front ++ (ms.flatten ++ (gap ++ (b.toList ++ back)))

/-- `v` is a spelling of the bare version `b`. -/
def Spells (v b : String) : Prop := IsBare b ∧ ∃ ms front gap back, Surrounds v b ms front gap back

variable {v b : String} {cs gap : List Char} {ms ps : List (List Char)}

/-! ## Marks -/

theorem mark_ne_nil {m : List Char} (h : m ∈ marks) : m ≠ [] := by
  rintro rfl
  exact absurd h (by decide)

theorem isBlank_of_mem_mark {m : List Char} (hm : m ∈ marks) {c : Char} (hc : c ∈ m) : isBlank c = false := by
  have hall : marks.all (fun m => m.all fun c => !isBlank c) = true := by decide +kernel
  simpa using List.all_eq_true.mp (List.all_eq_true.mp hall m hm) c hc

-- Each character of a mark is a mark of its own.
theorem singleton_mem_marks {m : List Char} (hm : m ∈ marks) {c : Char} (hc : c ∈ m) : [c] ∈ marks := by
  have hall : marks.all (fun m => m.all fun c => marks.contains [c]) = true := by decide +kernel
  simpa using List.all_eq_true.mp (List.all_eq_true.mp hall m hm) c hc

/-- A mark may be put together from marks that come later, as `>=` is from `>` and `=`, but then nothing is left
of these. -/
theorem flatten_eq_of_later_marks {m : List Char} (hps : m :: ps <:+ marks) (hms : ms.Sublist ps)
    (h : m <+: ms.flatten) : ms.flatten = m := by
  have hall : ∀ qs ∈ marks.tails, ∀ ms ∈ qs.tail.sublists, ∀ m ∈ qs.head?,
      m <+: ms.flatten → ms.flatten = m := by decide +kernel
  exact hall (m :: ps) ((List.mem_tails _ _).mpr hps) ms (List.mem_sublists.mpr hms) m rfl h

theorem Unmarked.blanks_append (h : Unmarked cs) (hgap : ∀ c ∈ gap, isBlank c = true) : Unmarked (gap ++ cs) := by
  cases gap with
  | nil => exact h
  | cons d gap =>
    rintro m hm ⟨rest, hrest⟩
    obtain ⟨c, m', rfl⟩ := List.exists_cons_of_ne_nil (mark_ne_nil hm)
    obtain ⟨rfl, -⟩ := List.cons.inj hrest
    have hblank := hgap c List.mem_cons_self
    rw [isBlank_of_mem_mark hm List.mem_cons_self] at hblank
    cases hblank

/-! ## Dropping marks -/

theorem dropMarks_cons (p : List Char) (ps : List (List Char)) (cs : List Char) :
    dropMarks (p :: ps) cs = dropMarks ps (dropStart p cs) := rfl

/-- Whatever the text, what is dropped are some of the marks, in their order. -/
theorem exists_sublist_dropMarks (ps : List (List Char)) (cs : List Char) :
    ∃ ms : List (List Char), ms.Sublist ps ∧ cs = ms.flatten ++ dropMarks ps cs := by
  induction ps generalizing cs with
  | nil => exact ⟨[], .slnil, rfl⟩
  | cons p ps ih =>
    rw [dropMarks_cons]
    by_cases hp : p <+: cs
    · obtain ⟨rest, rfl⟩ := hp
      obtain ⟨ms, hms, hrest⟩ := ih rest
      refine ⟨p :: ms, hms.cons_cons p, ?_⟩
      rw [dropStart_append, List.flatten_cons, List.append_assoc, ← hrest]
    · obtain ⟨ms, hms, hcs⟩ := ih cs
      rw [dropStart_of_absent hp]
      exact ⟨ms, hms.cons p, hcs⟩

theorem length_dropMarks_le (ps : List (List Char)) (cs : List Char) :
    (dropMarks ps cs).length ≤ cs.length := by
  obtain ⟨ms, -, hcs⟩ := exists_sublist_dropMarks ps cs
  have hlength := congrArg List.length hcs
  rw [List.length_append] at hlength
  omega

-- The induction is on the marks that are still to be dropped: those of them that stand before the rest are
-- dropped, be it one by one or two of them as one mark.
theorem dropMarks_flatten_append {rest : List Char} (hps : ps <:+ marks) (hms : ms.Sublist ps)
    (hrest : Unmarked rest) : dropMarks ps (ms.flatten ++ rest) = rest := by
  induction ps generalizing ms with
  | nil =>
    obtain rfl := List.sublist_nil.mp hms
    rfl
  | cons p ps ih =>
    have hlater : ps <:+ marks := (List.suffix_cons p ps).trans hps
    have hp : p ∈ marks := hps.subset List.mem_cons_self
    rw [dropMarks_cons]
    cases hms with
    | cons_cons _ hms =>
      rw [List.flatten_cons, List.append_assoc, dropStart_append]
      exact ih hlater hms
    | cons _ hms =>
      by_cases hstart : p <+: ms.flatten ++ rest
      · have hwhole : ms.flatten = p := by
          obtain ⟨tail, htail⟩ := hstart
          rcases List.append_eq_append_iff.mp htail with ⟨more, hmore, -⟩ | ⟨more, hmore, hend⟩
          · exact flatten_eq_of_later_marks hps hms ⟨more, hmore.symm⟩
          · cases more with
            | nil => rw [hmore, List.append_nil]
            | cons c more =>
              -- The rest would start with the end of a mark.
              have hc : [c] ∈ marks := singleton_mem_marks hp (by rw [hmore]; simp)
              exact absurd ⟨more ++ tail, by rw [hend]; rfl⟩ (hrest [c] hc)
        rw [hwhole, dropStart_append]
        exact ih hlater (List.nil_sublist ps)
      · rw [dropStart_of_absent hstart]
        exact ih hlater hms

theorem not_prefix_of_length_le (hps : ∀ p ∈ ps, p ≠ []) (h : cs.length ≤ (dropMarks ps cs).length) :
    ∀ p ∈ ps, ¬ p <+: cs := by
  induction ps with
  | nil => simp
  | cons p ps ih =>
    rw [dropMarks_cons] at h
    have hp : ¬ p <+: cs := by
      rintro ⟨rest, rfl⟩
      rw [dropStart_append, List.length_append] at h
      have hshort := length_dropMarks_le ps rest
      have hpos := List.length_pos_of_ne_nil (hps p List.mem_cons_self)
      omega
    rw [dropStart_of_absent hp] at h
    exact List.forall_mem_cons.mpr ⟨hp, ih (fun q hq => hps q (List.mem_cons_of_mem _ hq)) h⟩

/-! ## Normalizing -/

theorem normalize_eq_dropMarks (v : String) :
    Version.normalize v = String.ofList (trimChars (dropMarks marks (trimChars v.toList))) := by
  unfold Version.normalize dropMarks marks
  rw [List.foldl_cons, List.foldl_map]

theorem toList_normalize (v : String) :
    (Version.normalize v).toList = trimChars (dropMarks marks (trimChars v.toList)) := by
  rw [normalize_eq_dropMarks, String.toList_ofList]

/-- Whatever the text, marks in their order and blanks are all that normalizing drops. -/
theorem exists_surrounds_normalize (v : String) :
    ∃ ms front gap back, Surrounds v (Version.normalize v) ms front gap back := by
  obtain ⟨front, back, hv, hfront, hback⟩ := exists_eq_append_trimWhile isBlank v.toList
  obtain ⟨ms, hms, htrim⟩ := exists_sublist_dropMarks marks (trimChars v.toList)
  obtain ⟨gap, blanks, hdrop, hgap, hblanks⟩ :=
    exists_eq_append_trimWhile isBlank (dropMarks marks (trimChars v.toList))
  refine ⟨ms, front, gap, blanks ++ back, hms, hfront, hgap, List.forall_mem_append.mpr ⟨hblanks, hback⟩, ?_⟩
  change v.toList = front ++ (trimChars v.toList ++ back) at hv
  change dropMarks marks (trimChars v.toList) = gap ++ (trimChars _ ++ blanks) at hdrop
  rw [← toList_normalize] at hdrop
  rw [hdrop] at htrim
  rw [htrim] at hv
  simpa using hv

theorem trimChars_surrounded {front marked core back : List Char} (hfront : ∀ c ∈ front, isBlank c = true)
    (hmarked : ∀ c ∈ marked, isBlank c = false) (hgap : ∀ c ∈ gap, isBlank c = true)
    (hback : ∀ c ∈ back, isBlank c = true) (hfirst : ∀ c ∈ core.head?, isBlank c = false)
    (hlast : ∀ c ∈ core.getLast?, isBlank c = false) :
    ∃ inner, (∀ c ∈ inner, isBlank c = true) ∧
      trimChars (front ++ (marked ++ (gap ++ (core ++ back)))) = marked ++ (inner ++ core) := by
  cases marked with
  | nil =>
    -- Without a mark the blanks before it and behind it are one run.
    have htrim : trimChars (front ++ gap ++ (core ++ back)) = core :=
      trimWhile_eq_of_append (List.forall_mem_append.mpr ⟨hfront, hgap⟩) hback hfirst hlast
    rw [List.append_assoc] at htrim
    exact ⟨[], by simp, htrim⟩
  | cons m marked =>
    have hstart : isBlank m = false := hmarked m List.mem_cons_self
    cases core using List.reverseRecOn with
    | nil =>
      have hend : ∀ c ∈ (m :: marked).getLast?, isBlank c = false := fun c hc =>
        hmarked c (List.mem_of_getLast? hc)
      have htrim : trimChars (front ++ (m :: marked ++ (gap ++ back))) = m :: marked :=
        trimWhile_eq_of_append hfront (List.forall_mem_append.mpr ⟨hgap, hback⟩) (by simpa using hstart) hend
      exact ⟨[], by simp, by simpa using htrim⟩
    | append_singleton core c =>
      have hend : ∀ d ∈ (m :: marked ++ (gap ++ (core ++ [c]))).getLast?, isBlank d = false := by
        rw [← List.append_assoc, List.getLast?_append_of_ne_nil _ (by simp)]
        exact hlast
      have htrim : trimChars (front ++ (m :: marked ++ (gap ++ (core ++ [c])) ++ back)) =
          m :: marked ++ (gap ++ (core ++ [c])) :=
        trimWhile_eq_of_append hfront hback (by simpa using hstart) hend
      exact ⟨gap, hgap, by simpa using htrim⟩

theorem Surrounds.normalize_eq {front back : List Char} (h : Surrounds v b ms front gap back) (hb : IsBare b) :
    Version.normalize v = b := by
  have hmarked : ∀ c ∈ ms.flatten, isBlank c = false := by
    intro c hc
    obtain ⟨m, hm, hcm⟩ := List.mem_flatten.mp hc
    exact isBlank_of_mem_mark (h.ordered.subset hm) hcm
  obtain ⟨inner, hinner, htrim⟩ := trimChars_surrounded h.blankFront hmarked h.blankGap h.blankBack hb.first hb.last
  rw [normalize_eq_dropMarks, h.text, htrim,
    dropMarks_flatten_append (List.suffix_refl _) h.ordered (hb.unmarked.blanks_append hinner),
    trimChars, trimWhile_append_of_ends hinner hb.first hb.last, String.ofList_toList]

theorem surrounds_self (v : String) : Surrounds v v [] [] [] [] :=
  ⟨List.nil_sublist _, by simp, by simp, by simp, by simp⟩

theorem IsBare.normalize_eq (h : IsBare v) : Version.normalize v = v := (surrounds_self v).normalize_eq h

theorem isBare_of_normalize_eq (h : Version.normalize v = v) : IsBare v := by
  have htext : trimChars (dropMarks marks (trimChars v.toList)) = v.toList := by
    rw [← toList_normalize, h]
  have hfirst : ∀ c ∈ v.toList.head?, isBlank c = false := by
    rw [← htext]
    exact fun c hc => first_trimWhile hc
  have hlast : ∀ c ∈ v.toList.getLast?, isBlank c = false := by
    rw [← htext]
    exact fun c hc => last_trimWhile hc
  refine ⟨not_prefix_of_length_le (fun m hm => mark_ne_nil hm) ?_, hfirst, hlast⟩
  -- Nothing got shorter, so no mark was dropped.
  have hlength := congrArg List.length htext
  have hdropped : (trimChars (dropMarks marks (trimChars v.toList))).length ≤ _ := length_trimWhile_le isBlank _
  have htrim : trimChars ([] ++ v.toList) = v.toList := trimWhile_append_of_ends (by simp) hfirst hlast
  rw [List.nil_append] at htrim
  rw [htrim] at hlength hdropped
  omega

theorem isBare_iff : IsBare v ↔ Version.normalize v = v := ⟨IsBare.normalize_eq, isBare_of_normalize_eq⟩

instance : DecidablePred IsBare := fun _ => decidable_of_iff _ isBare_iff.symm

theorem Spells.normalize_eq (h : Spells v b) : Version.normalize v = b := by
  obtain ⟨hb, ms, front, gap, back, hv⟩ := h
  exact hv.normalize_eq hb

/-- A text is a spelling exactly when a second normalizing leaves what the first one gave. -/
theorem exists_spells_iff : (∃ b, Spells v b) ↔ Version.normalize (Version.normalize v) = Version.normalize v := by
  constructor
  · rintro ⟨b, hb⟩
    rw [hb.normalize_eq, hb.1.normalize_eq]
  · intro h
    exact ⟨Version.normalize v, isBare_iff.mpr h, exists_surrounds_normalize v⟩

end Version

open Version

/-! ## Lookups -/

section

variable {tc : Toolchain} {s : Surroundings} {t : FileTree} {v w path : String} {a : Answer String}

theorem pathOf_of_normalize_eq (h : Version.normalize v = Version.normalize w) (tc : Toolchain) (s : Surroundings)
    (t : FileTree) : tc.pathOf s t v = tc.pathOf s t w := by
  unfold Toolchain.pathOf
  rw [h]

theorem pathOf_of_cached? (hnamed : Version.normalize v ≠ "")
    (h : tc.cached? s t (Version.normalize v) = some path) : tc.pathOf s t v = ⟨.ok path, tc, t, [], []⟩ := by
  unfold Toolchain.pathOf
  dsimp only
  rw [if_neg hnamed, h]

theorem cached?_remember (h : t.Runnable s.cwd path) : (tc.remember v path).cached? s t v = some path := by
  simp [Toolchain.cached?, Option.filter_some, h.isThere]

/-- A version that was located is remembered at the place that was told. -/
theorem Located.cached? (h : Located tc s t v a) (hok : a.outcome = .ok path) :
    v ≠ "" ∧ a.toolchain.cached? s a.tree v = some path := by
  cases h with
  | unnamed | refused | triedBefore | failed | vanished => cases hok
  | remembered hnamed hcached =>
    obtain rfl := Except.ok.inj hok
    exact ⟨hnamed, hcached⟩
  | found hnamed _ hfound =>
    obtain rfl := Except.ok.inj hok
    exact ⟨hnamed, cached?_remember (runnable_of_findInstalled? hfound)⟩
  | installed hmissing _ _ _ hafter =>
    obtain rfl := Except.ok.inj hok
    exact ⟨hmissing.named, cached?_remember (runnable_of_findInstalled? hafter)⟩

-- Surroundings in which no version is found, so that each one has to be installed.
def withoutHome : Surroundings := ⟨[], none, fun _ => none, fun _ t => (.error (.told "offline"), t, [])⟩

theorem Located.calls_withoutHome (h : Located (Toolchain.new ⟨"", "", true⟩) withoutHome t v a) :
    a.calls = if v = "" then [] else [(v, t)] := by
  cases h with
  | unnamed _ hunnamed => rw [if_pos hunnamed]
  | remembered _ hcached => cases hcached
  | found _ _ hfound => cases hfound
  | refused _ _ hoff => cases hoff
  | triedBefore _ _ htried => cases htried
  | failed hmissing => rw [if_neg hmissing.named]
  | installed hmissing => rw [if_neg hmissing.named]
  | vanished _ hmissing => rw [if_neg hmissing.named]

/-- Two texts are looked up alike, by every toolchain and everywhere, only if normalizing gives the same. -/
theorem pathOf_eq_iff : (∀ tc s t, Toolchain.pathOf tc s t v = Toolchain.pathOf tc s t w) ↔
    Version.normalize v = Version.normalize w := by
  refine ⟨fun h => ?_, fun h tc s t => pathOf_of_normalize_eq h tc s t⟩
  have hv := (located_pathOf (Toolchain.new ⟨"", "", true⟩) withoutHome FileTree.empty v).calls_withoutHome
  have hw := (located_pathOf (Toolchain.new ⟨"", "", true⟩) withoutHome FileTree.empty w).calls_withoutHome
  rw [h, hw] at hv
  by_cases hunnamed : Version.normalize v = ""
  · by_contra hne
    rw [if_pos hunnamed, if_neg (fun hw' => hne (hunnamed.trans hw'.symm))] at hv
    cases hv
  · by_cases hunnamed' : Version.normalize w = ""
    · rw [if_neg hunnamed, if_pos hunnamed'] at hv
      cases hv
    · rw [if_neg hunnamed, if_neg hunnamed'] at hv
      exact (Prod.mk.inj (List.cons.inj hv).1).1.symm

theorem supportsStopAfter_bare_iff (h : IsBare v) :
    supportsStopAfter v = true ↔ v = "" ∨ Version.cmp v stopAfterSince ≠ .lt := by
  unfold supportsStopAfter
  rw [h.normalize_eq]
  simp only [Bool.or_eq_true, beq_iff_eq, bne_iff_ne]

end

/-! ## The version of a compiler -/

/-- The version under which a compiler is asked for: with a configured path only the configured one. -/
def Toolchain.asked (tc : Toolchain) (source : Bytes) : String :=
  if tc.options.path = "" then tc.wanted source else tc.options.version

section

variable {tc : Toolchain} {s : Surroundings} {t : FileTree} {source : Bytes} {b : Binary}

theorem isBare_empty : IsBare "" := by decide

-- Versions that sources ask for are bare already.
theorem isBare_asked (h : tc.options.version = "") (source : Bytes) : IsBare (tc.asked source) := by
  unfold Toolchain.asked Toolchain.wanted
  rw [if_pos h, h]
  split
  · cases hversion : Pragma.version? source with
    | none => exact isBare_empty
    | some v => exact isBare_iff.mpr (Pragma.isRelease_of_version? hversion).normalize_eq
  · exact isBare_empty

theorem version_of_resolve (hok : (tc.resolve s t source).outcome = .ok b) :
    (b.version = "" ∧ tc.options.path = "" ∧ s.onPath (tc.resolve s t source).tree = some b.path) ∨
      b.version = Version.normalize (tc.asked source) := by
  unfold Toolchain.asked
  by_cases hpath : tc.options.path = ""
  · obtain ⟨-, htree, -, houtcome⟩ := resolve_of_no_path s t source hpath
    rw [houtcome] at hok
    rw [if_pos hpath]
    split at hok
    · obtain rfl := Except.ok.inj hok
      exact .inr rfl
    · obtain ⟨hunnamed, honPath⟩ := fallback_eq_ok hok
      rw [htree]
      exact .inl ⟨hunnamed, hpath, honPath⟩
  · rw [if_neg hpath]
    unfold Toolchain.resolve at hok
    dsimp only at hok
    rw [if_pos hpath] at hok
    split at hok
    · obtain rfl := Except.ok.inj hok
      exact .inr rfl
    · cases hok

theorem pathOf_after_resolve (hpath : tc.options.path = "") (hok : (tc.resolve s t source).outcome = .ok b)
    (hnamed : b.version ≠ "") (hbare : IsBare b.version) :
    (tc.resolve s t source).toolchain.pathOf s (tc.resolve s t source).tree b.version =
      ⟨.ok b.path, (tc.resolve s t source).toolchain, (tc.resolve s t source).tree, [], []⟩ := by
  obtain ⟨htoolchain, htree, -, houtcome⟩ := resolve_of_no_path s t source hpath
  have hlocated := located_pathOf tc s t (tc.wanted source)
  rw [htoolchain, htree]
  rw [houtcome] at hok
  generalize tc.pathOf s t (tc.wanted source) = a at *
  cases hfound : a.outcome with
  | error e =>
    rw [hfound] at hok
    exact absurd (fallback_eq_ok hok).1 hnamed
  | ok path =>
    rw [hfound] at hok
    obtain rfl := Except.ok.inj hok
    have hagain : Version.normalize (Version.normalize (tc.wanted source)) = Version.normalize (tc.wanted source) :=
      hbare.normalize_eq
    obtain ⟨hnamed', hcached⟩ := hlocated.cached? hfound
    rw [← hagain] at hnamed' hcached
    exact pathOf_of_cached? hnamed' hcached

end

/-- Normalizing again changes nothing exactly when the text spells a bare version.  This version is then what
normalizing gives, and only then a lookup of the result is always the lookup of the text.  A compiler is given out
under the normalized version; only the one on the search path, which is taken when no path is configured, is given out
under none.  If the version that was asked for spells a bare one, which it always does when none is configured, then
the compiler can be told to stop after parsing or not by the very version it is given out under, and a lookup of that
version gives the same compiler, which is remembered. -/
theorem normalize_again_iff (v : String) :
    ((∃ b, Spells v b) ↔ Version.normalize (Version.normalize v) = Version.normalize v) ∧
    (∀ b, Spells v b → Version.normalize v = b) ∧
    ((∃ b, Spells v b) ↔
      ∀ tc s t, Toolchain.pathOf tc s t (Version.normalize v) = Toolchain.pathOf tc s t v) ∧
    ∀ (tc : Toolchain) (s : Surroundings) (t : FileTree) (source : Bytes) (b : Binary),
      tc.asked source = v → (tc.resolve s t source).outcome = .ok b →
        ((b.version = "" ∧ tc.options.path = "" ∧ s.onPath (tc.resolve s t source).tree = some b.path) ∨
          b.version = Version.normalize v) ∧
        (tc.options.version = "" ∨ (∃ w, Spells v w) →
          (supportsStopAfter b.version = true ↔ b.version = "" ∨ Version.cmp b.version stopAfterSince ≠ .lt) ∧
          (tc.options.path = "" → b.version ≠ "" →
            (tc.resolve s t source).toolchain.pathOf s (tc.resolve s t source).tree b.version =
              ⟨.ok b.path, (tc.resolve s t source).toolchain, (tc.resolve s t source).tree, [], []⟩)) := by
  refine ⟨exists_spells_iff, fun b hb => hb.normalize_eq, exists_spells_iff.trans pathOf_eq_iff.symm, ?_⟩
  rintro tc s t source b rfl hok
  have hversion := version_of_resolve hok
  refine ⟨hversion, fun hspelled => ?_⟩
  have hbare : IsBare b.version := by
    rcases hversion with ⟨hunnamed, -⟩ | hnormal
    · rw [hunnamed]
      exact isBare_empty
    · rw [hnormal]
      rcases hspelled with hsource | ⟨w, hw⟩
      · rw [(isBare_asked hsource source).normalize_eq]
        exact isBare_asked hsource source
      · rw [hw.normalize_eq]
        exact hw.1
  exact ⟨supportsStopAfter_bare_iff hbare, fun hpath hnamed => pathOf_after_resolve hpath hok hnamed hbare⟩

-- A configured version with two marks and blanks on all sides.
def spacedVersion : Toolchain := Toolchain.new ⟨"", " v^ 0.8.26 ", false⟩

theorem normalize_again_iff_spaced :
    Spells " v^ 0.8.26 " "0.8.26" ∧
      ∃ b, (spacedVersion.resolve quietHome (compilerTree true) []).outcome = .ok b ∧ b.version = "0.8.26" ∧
        (spacedVersion.resolve quietHome (compilerTree true) []).toolchain.pathOf quietHome
            (spacedVersion.resolve quietHome (compilerTree true) []).tree b.version =
          ⟨.ok b.path, (spacedVersion.resolve quietHome (compilerTree true) []).toolchain,
            (spacedVersion.resolve quietHome (compilerTree true) []).tree, [], []⟩ := by
  have hspells : Spells " v^ 0.8.26 " "0.8.26" :=
    ⟨by decide, [['v'], ['^']], [' '], [' '], [' '],
      by decide +kernel, by simp; decide, by simp; decide, by simp; decide, by decide +kernel⟩
  have hok : (spacedVersion.resolve quietHome (compilerTree true) []).outcome =
      .ok ⟨"/h/.solcx/solc-v0.8.26", "0.8.26"⟩ := by decide +kernel
  obtain ⟨-, -, -, hserved⟩ := normalize_again_iff " v^ 0.8.26 "
  exact ⟨hspells, _, hok, rfl,
    ((hserved spacedVersion quietHome (compilerTree true) [] _ rfl hok).2 (.inr ⟨_, hspells⟩)).2 rfl (by decide)⟩

-- One release below both directories, and the letter behind the comparator.
def installedTwice : FileTree :=
  ((((compilerTree true).insert ["h", ".solc-select"] .directory).insert
    ["h", ".solc-select", "artifacts"] .directory).insert
    ["h", ".solc-select", "artifacts", "solc-0.8.26"] .directory).insert
    ["h", ".solc-select", "artifacts", "solc-0.8.26", "solc-0.8.26"] (.file [] true)

def letterBehind : Toolchain := Toolchain.new ⟨"", "^v0.8.26", false⟩

/-- The letter is looked for only before the comparators.  Behind one it stays in the version under which the
compiler is given out, and looking up this version gives another compiler. -/
theorem normalize_again_drops_letter :
    Version.normalize "^v0.8.26" = "v0.8.26" ∧
      Version.normalize (Version.normalize "^v0.8.26") ≠ Version.normalize "^v0.8.26" ∧
      (letterBehind.resolve quietHome installedTwice []).outcome = .ok ⟨"/h/.solcx/solc-v0.8.26", "v0.8.26"⟩ ∧
      ((letterBehind.resolve quietHome installedTwice []).toolchain.pathOf quietHome
          (letterBehind.resolve quietHome installedTwice []).tree "v0.8.26").outcome =
        .ok "/h/.solc-select/artifacts/solc-0.8.26/solc-0.8.26" := by
  decide +kernel

end SolidityAst.Solc
