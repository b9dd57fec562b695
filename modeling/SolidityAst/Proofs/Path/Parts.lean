import Mathlib.Data.List.Basic
import Mathlib.Data.List.TakeWhile
import SolidityAst.Proofs.Path.Clean

/-!
The parts of cleaned paths.

A cleaned path is `ofNames` of its names, and the operations on paths are operations on the list: the
directory drops the last name, joining appends names, and the path from one place to another goes up
the names that are not shared.
-/
namespace SolidityAst.Path

open Text

/-! ## Texts with slashes -/

@[simp] theorem names_append_slash (s t : String) : names (s ++ "/" ++ t) = names s ++ names t :=
  fields_append_sep '/' s t

theorem names_intercalate {ss : List String} (h : ss ≠ []) :
    names ("/".intercalate ss) = ss.flatMap names :=
  fields_intercalate h

theorem names_of_noSlash {s : String} (h : '/' ∉ s.toList) : names s = [s] :=
  fields_of_notMem h

@[simp] theorem names_empty : names "" = [""] :=
  names_of_noSlash (by decide)

@[simp] theorem names_slash : names "/" = ["", ""] := by
  have h := names_append_slash "" ""
  rwa [names_empty] at h

theorem flatMap_names {ns : List String} (h : ∀ n ∈ ns, '/' ∉ n.toList) : ns.flatMap names = ns := by
  induction ns with
  | nil => rfl
  | cons n ns ih =>
    rw [List.flatMap_cons, names_of_noSlash (h n List.mem_cons_self),
      ih fun m hm => h m (List.mem_cons_of_mem _ hm)]
    rfl

/-- A text is its names with slashes between them. -/
@[simp] theorem intercalate_names (s : String) : "/".intercalate (names s) = s := by
  have hcs : ∀ cs : List Char, ['/'].intercalate (splitOn '/' cs) = cs := by
    intro cs
    induction cs with
    | nil => rfl
    | cons c cs ih =>
      obtain ⟨f, fs, hf⟩ := List.exists_cons_of_ne_nil (splitOn_ne_nil '/' cs)
      rw [splitOn]
      by_cases hc : c = '/'
      · rw [if_pos hc, List.intercalate_cons_of_ne_nil (splitOn_ne_nil '/' cs), ih, hc]
        rfl
      · rw [if_neg hc]
        rw [hf] at ih ⊢
        simp only [List.intercalate_cons_cons_left, ih]
  rw [← String.toList_inj, String.toList_intercalate, names, fields, List.map_map]
  have hid : (String.toList ∘ String.ofList) = id := by
    funext cs
    exact String.toList_ofList
  rw [hid, List.map_id]
  exact hcs s.toList

theorem isAbsolute_append {s : String} (t : String) (h : s ≠ "") :
    isAbsolute (s ++ t) = isAbsolute s := by
  obtain ⟨c, cs, hc⟩ := List.exists_cons_of_ne_nil (by simpa using h : s.toList ≠ [])
  unfold isAbsolute
  rw [String.toList_append, hc]
  rfl

theorem isAbsolute_eq_false_of_noSlash {s : String} (h : '/' ∉ s.toList) : isAbsolute s = false := by
  unfold isAbsolute
  cases hs : s.toList with
  | nil => rfl
  | cons c cs =>
    rw [hs, List.mem_cons, not_or] at h
    simpa using Ne.symm h.1

@[simp] theorem isAbsolute_slash (t : String) : isAbsolute ("/" ++ t) = true := by
  simp [isAbsolute]

theorem ne_empty_of_isAbsolute {p : String} (h : isAbsolute p = true) : p ≠ "" := by
  rintro rfl
  simp [isAbsolute] at h

/-! ## Paths of cleaned names -/

variable {rooted : Bool} {ns : List String}

theorem intercalate_ne_empty (h : Cleaned rooted ns) (hne : ns ≠ []) : "/".intercalate ns ≠ "" := by
  obtain ⟨n, ms, rfl⟩ := List.exists_cons_of_ne_nil hne
  have hn := (h.noSlash n List.mem_cons_self).1
  cases ms with
  | nil => simpa using hn
  | cons m ms => simp

theorem ofNames_ne_empty (h : Cleaned rooted ns) : ofNames rooted ns ≠ "" := by
  unfold ofNames
  by_cases hr : rooted = true
  · simp [hr]
  · rw [if_neg hr]
    by_cases hne : ns = []
    · simp [hne]
    · simpa [hne] using intercalate_ne_empty h hne

theorem isAbsolute_ofNames (h : Cleaned rooted ns) : isAbsolute (ofNames rooted ns) = rooted := by
  cases rooted with
  | true => exact isAbsolute_slash _
  | false =>
    cases ns with
    | nil => rfl
    | cons n ms =>
      have hn := h.noSlash n List.mem_cons_self
      have hfalse := isAbsolute_eq_false_of_noSlash hn.2.2
      cases ms with
      | nil => simpa [ofNames] using hfalse
      | cons m ms =>
        have he : ofNames false (n :: m :: ms) = n ++ ("/" ++ "/".intercalate (m :: ms)) := by
          simp [ofNames, String.append_assoc]
        rw [he, isAbsolute_append _ hn.1, hfalse]

/-- What cleaning sees of a path made of cleaned names: those names and nothing else. -/
theorem foldl_names_ofNames (b : Bool) (before : List String) (h : Cleaned rooted ns) :
    (names (ofNames rooted ns)).foldl (cleanStep b) before = ns.foldl (cleanStep b) before := by
  have hns : ns ≠ [] → names ("/".intercalate ns) = ns := fun hne => by
    rw [names_intercalate hne, flatMap_names fun n hn => (h.noSlash n hn).2.2]
  unfold ofNames
  by_cases hne : ns = []
  · subst hne
    cases rooted with
    | true =>
      change (names "/").foldl (cleanStep b) before = before
      rw [names_slash, List.foldl_cons, cleanStep_empty, List.foldl_cons, cleanStep_empty,
        List.foldl_nil]
    | false =>
      change (names ".").foldl (cleanStep b) before = before
      rw [names_of_noSlash (by decide), List.foldl_cons, cleanStep_dot, List.foldl_nil]
  · cases rooted with
    | true =>
      have hs := names_append_slash "" ("/".intercalate ns)
      rw [names_empty, hns hne, String.empty_append] at hs
      simp [hs]
    | false => rw [if_neg (by simp), if_neg (by simpa using hne), hns hne]

theorem cleanNames_ofNames (h : Cleaned rooted ns) : cleanNames (ofNames rooted ns) = ns := by
  rw [cleanNames, isAbsolute_ofNames h, foldl_names_ofNames _ _ h, h.foldl_cleanStep,
    List.reverse_reverse]

theorem clean_ofNames (h : Cleaned rooted ns) : clean (ofNames rooted ns) = ofNames rooted ns := by
  rw [clean, isAbsolute_ofNames h, cleanNames_ofNames h]

@[simp] theorem isAbsolute_clean (p : String) : isAbsolute (clean p) = isAbsolute p :=
  isAbsolute_ofNames (cleaned_cleanNames p)

@[simp] theorem cleanNames_clean (p : String) : cleanNames (clean p) = cleanNames p :=
  cleanNames_ofNames (cleaned_cleanNames p)

theorem ofNames_injective {rooted' : Bool} {ns' : List String} (h : Cleaned rooted ns)
    (h' : Cleaned rooted' ns') (he : ofNames rooted ns = ofNames rooted' ns') :
    rooted = rooted' ∧ ns = ns' := by
  constructor
  · rw [← isAbsolute_ofNames h, he, isAbsolute_ofNames h']
  · rw [← cleanNames_ofNames h, he, cleanNames_ofNames h']

/-- Slashes at the end do not count. -/
theorem ofNames_append_inj {p : String} {as bs : List String} (ha : ∀ n ∈ as, IsName n)
    (hb : ∀ n ∈ bs, IsName n) :
    ofNames (isAbsolute p) (cleanNames p ++ as) = ofNames (isAbsolute p) (cleanNames p ++ bs) ↔
      as = bs := by
  refine ⟨fun h => ?_, fun h => by rw [h]⟩
  have hinj := ofNames_injective ((cleaned_cleanNames p).append ha) ((cleaned_cleanNames p).append hb) h
  exact List.append_cancel_left hinj.2

theorem clean_append_slash {p : String} (h : p ≠ "") : clean (p ++ "/") = clean p := by
  have hn := names_append_slash p ""
  rw [String.append_empty, names_empty] at hn
  rw [clean, clean, cleanNames, cleanNames, isAbsolute_append _ h, hn, List.foldl_append,
    List.foldl_cons, cleanStep_empty, List.foldl_nil]

/-! ## Directory and last name -/

theorem bne_slash_of_mem {u : List Char} (h : '/' ∉ u) : ∀ c ∈ u, (c != '/') = true := by
  intro c hc
  rw [bne_iff_ne]
  rintro rfl
  exact h hc

theorem takeWhile_append_slash {u v : List Char} (h : '/' ∉ u) :
    (u ++ '/' :: v).takeWhile (· != '/') = u := by
  rw [List.takeWhile_append_of_pos (bne_slash_of_mem h)]
  simp

theorem dropWhile_append_slash {u v : List Char} (h : '/' ∉ u) :
    (u ++ '/' :: v).dropWhile (· != '/') = '/' :: v := by
  rw [List.dropWhile_append_of_pos (bne_slash_of_mem h)]
  simp

theorem splitLast_append_slash (a : String) {b : String} (h : '/' ∉ b.toList) :
    splitLast (a ++ "/" ++ b) = (a ++ "/", b) := by
  have hb : '/' ∉ b.toList.reverse := by simpa using h
  have hback : (a ++ "/" ++ b).toList.reverse = b.toList.reverse ++ '/' :: a.toList.reverse := by
    simp
  unfold splitLast
  simp only [hback, dropWhile_append_slash hb, takeWhile_append_slash hb, Prod.mk.injEq]
  constructor
  · rw [← String.toList_inj]
    simp
  · rw [List.reverse_reverse, String.ofList_toList]

theorem splitLast_of_noSlash {b : String} (h : '/' ∉ b.toList) : splitLast b = ("", b) := by
  have hall := bne_slash_of_mem (by simpa using h : '/' ∉ b.toList.reverse)
  unfold splitLast
  simp only [List.dropWhile_eq_nil_iff.mpr hall, List.takeWhile_eq_self_iff.mpr hall,
    List.reverse_reverse, String.ofList_toList]
  rfl

/-- The path of several names is that of all but the last, a slash and the last. -/
theorem ofNames_append_singleton (rooted : Bool) {init : List String} (l : String) (h : init ≠ []) :
    ofNames rooted (init ++ [l]) = ofNames rooted init ++ "/" ++ l := by
  have hi : "/".intercalate (init ++ [l]) = "/".intercalate init ++ "/" ++ l := by
    rw [String.intercalate_append_of_ne_nil h (by simp), String.intercalate_singleton]
  cases rooted with
  | true => simp only [ofNames, if_true, hi, String.append_assoc]
  | false => simp [ofNames, h, hi]

/-- What stands before the last name in a path of cleaned names. -/
def lead (rooted : Bool) (init : List String) : String :=
  if init = [] then (if rooted then "/" else "") else ofNames rooted init ++ "/"

theorem lead_of_ne_nil (rooted : Bool) {init : List String} (h : init ≠ []) :
    lead rooted init = ofNames rooted init ++ "/" :=
  if_neg h

theorem ofNames_concat (rooted : Bool) (init : List String) (l : String) :
    ofNames rooted (init ++ [l]) = lead rooted init ++ l := by
  by_cases hi : init = []
  · cases rooted <;> simp [ofNames, lead, hi]
  · rw [ofNames_append_singleton _ _ hi, lead_of_ne_nil _ hi]

/-- How a cleaned path with a last name is split at its last slash. -/
theorem splitLast_ofNames {init : List String} {l : String} (h : Cleaned rooted (init ++ [l])) :
    splitLast (ofNames rooted (init ++ [l])) = (lead rooted init, l) := by
  have hl : '/' ∉ l.toList := (h.noSlash l (by simp)).2.2
  by_cases hi : init = []
  · subst hi
    cases rooted with
    | true =>
      have he : ofNames true ([] ++ [l]) = "" ++ "/" ++ l := by simp [ofNames]
      rw [he, splitLast_append_slash _ hl]
      rfl
    | false =>
      have he : ofNames false ([] ++ [l]) = l := by simp [ofNames]
      rw [he, splitLast_of_noSlash hl]
      rfl
  · rw [ofNames_append_singleton _ _ hi, splitLast_append_slash _ hl, lead_of_ne_nil _ hi]

theorem dir_ofNames (h : Cleaned rooted ns) : dir (ofNames rooted ns) = ofNames rooted ns.dropLast := by
  rcases List.eq_nil_or_concat' ns with rfl | ⟨init, l, rfl⟩
  · cases rooted with
    | true =>
      change clean (splitLast ("" ++ "/" ++ "")).1 = "/"
      rw [splitLast_append_slash _ (by decide)]
      exact clean_ofNames h
    | false =>
      change clean (splitLast ".").1 = "."
      rw [splitLast_of_noSlash (by decide)]
      rfl
  · rw [dir, splitLast_ofNames h, List.dropLast_concat]
    by_cases hi : init = []
    · subst hi
      cases rooted with
      | true =>
        have hlead : lead true [] = ofNames true [] := by simp [lead, ofNames]
        rw [hlead, clean_ofNames (Cleaned.nil true)]
      | false =>
        have hlead : lead false [] = "" := by simp [lead]
        rw [hlead]
        rfl
    · rw [lead_of_ne_nil _ hi, clean_append_slash (ofNames_ne_empty h.of_append),
        clean_ofNames h.of_append]

theorem dropWhile_slash_append (a : String) {b : String} (h : '/' ∉ b.toList) (hb : b ≠ "") :
    (a ++ b).toList.reverse.dropWhile (· == '/') = (a ++ b).toList.reverse := by
  obtain ⟨c, cs, hc⟩ := List.exists_cons_of_ne_nil (by simpa using hb : b.toList.reverse ≠ [])
  have hslash : c ≠ '/' := by
    rintro rfl
    exact h (List.mem_reverse.mp (hc ▸ List.mem_cons_self))
  rw [String.toList_append, List.reverse_append, hc, List.cons_append,
    List.dropWhile_cons_of_neg (by simpa using hslash)]

theorem base_append_slash (a : String) {b : String} (h : '/' ∉ b.toList) (hb : b ≠ "") :
    base (a ++ "/" ++ b) = b := by
  have hne : a ++ "/" ++ b ≠ "" := by simp
  have hslash : '/' ∉ b.toList.reverse := by simpa using h
  have hback : (a ++ "/" ++ b).toList.reverse = b.toList.reverse ++ '/' :: a.toList.reverse := by
    simp
  have hends : base.dropEndSlashes (a ++ "/" ++ b).toList = (a ++ "/" ++ b).toList := by
    rw [base.dropEndSlashes, dropWhile_slash_append (a ++ "/") h hb, List.reverse_reverse]
  unfold base
  rw [if_neg hne, hends]
  split
  · rename_i hnil
    simp at hnil
  · rw [hback, takeWhile_append_slash hslash, List.reverse_reverse, String.ofList_toList]

/-- The path above one of cleaned names; above a single name there is none. -/
theorem parent?_ofNames {init : List String} {l : String} (h : Cleaned rooted (init ++ [l])) :
    parent? (ofNames rooted (init ++ [l])) = if init = [] then none else some (ofNames rooted init) := by
  obtain ⟨hne, -, hl⟩ := h.noSlash l (by simp)
  have hslash : '/' ∉ l.toList.reverse := by simpa using hl
  unfold parent?
  rw [ofNames_concat, dropWhile_slash_append _ hl hne]
  by_cases hi : init = []
  · subst hi
    have hall := List.dropWhile_eq_nil_iff.mpr (bne_slash_of_mem hslash)
    cases rooted with
    | true =>
      have hback : (lead true [] ++ l).toList.reverse = l.toList.reverse ++ '/' :: [] := by simp [lead]
      rw [hback, dropWhile_append_slash hslash]
      rfl
    | false =>
      have hback : (lead false [] ++ l).toList.reverse = l.toList.reverse := by simp [lead]
      rw [hback, hall]
      rfl
  · have hback : (lead rooted init ++ l).toList.reverse =
        l.toList.reverse ++ '/' :: (ofNames rooted init).toList.reverse := by
      simp [lead_of_ne_nil rooted hi]
    rw [hback, dropWhile_append_slash hslash, if_neg hi]
    cases hrev : (ofNames rooted init).toList.reverse with
    | nil => exact absurd (by simpa using hrev) (ofNames_ne_empty h.of_append)
    | cons c cs =>
      change some (String.ofList (c :: cs).reverse) = _
      rw [← hrev, List.reverse_reverse, String.ofList_toList]

/-- The last name of a rooted cleaned path; the root itself has only its slash. -/
@[simp] theorem base_ofNames_root : base (ofNames true []) = "/" := by
  decide

theorem base_of_noSlash {b : String} (h : '/' ∉ b.toList) (hb : b ≠ "") : base b = b := by
  have hall := bne_slash_of_mem (by simpa using h : '/' ∉ b.toList.reverse)
  have hends : base.dropEndSlashes b.toList = b.toList := by
    have hdrop := dropWhile_slash_append "" h hb
    rw [String.empty_append] at hdrop
    rw [base.dropEndSlashes, hdrop, List.reverse_reverse]
  unfold base
  rw [if_neg hb, hends]
  split
  · rename_i hnil
    exact absurd (by simpa using hnil) hb
  · rw [List.takeWhile_eq_self_iff.mpr hall, List.reverse_reverse, String.ofList_toList]

theorem base_ofNames {init : List String} {l : String} (h : Cleaned rooted (init ++ [l])) :
    base (ofNames rooted (init ++ [l])) = l := by
  obtain ⟨hne, -, hl⟩ := h.noSlash l (by simp)
  by_cases hi : init = []
  · cases rooted with
    | true =>
      have he : ofNames true (init ++ [l]) = "" ++ "/" ++ l := by simp [ofNames, hi]
      rw [he, base_append_slash _ hl hne]
    | false =>
      have he : ofNames false (init ++ [l]) = l := by simp [ofNames, hi]
      rw [he, base_of_noSlash hl hne]
  · rw [ofNames_append_singleton _ _ hi, base_append_slash _ hl hne]

end SolidityAst.Path
