import Mathlib.Data.List.Nodup
import Mathlib.Logic.Relation
import SolidityAst.Batch.Discovery
import SolidityAst.Proofs.Batch.Exclusion
import SolidityAst.Proofs.FileTree.Walk
import SolidityAst.Proofs.Lists
import SolidityAst.Proofs.Path.Absolute

/-!
What a search finds.

`Enters` is one step of a search, from a directory that is not excluded to one of its entries, and an entry is
met if such steps lead to it.  A search either ends because a directory that it meets cannot be opened, or it
gives the paths of all wanted entries that are met, each once.
-/
namespace SolidityAst.Batch

open FileTree SolidityAst.Path Text

/-! ## The paths that a walk makes -/

/-- The path of an entry as a walk makes it, by joining one name after another to the path of the directory. -/
def walked (root : String) (names : List String) : String :=
  names.foldl (fun path name => join [path, name]) root

theorem walked_concat (root : String) (names : List String) (name : String) :
    walked root (names ++ [name]) = join [walked root names, name] :=
  List.foldl_concat ..

theorem walked_eq_ofNames (root : String) {names : List String} (hne : names ≠ [])
    (hnames : ∀ n ∈ names, IsName n) :
    walked root names = ofNames (isAbsolute root) (cleanNames root ++ names) := by
  induction names using List.reverseRecOn with
  | nil => exact absurd rfl hne
  | append_singleton names name ih =>
    have hlast : ∀ n ∈ [name], IsName n := fun n hn => hnames n (List.mem_append_right _ hn)
    have hinit : ∀ n ∈ names, IsName n := fun n hn => hnames n (List.mem_append_left _ hn)
    rw [walked_concat]
    by_cases hempty : names = []
    · subst hempty
      exact join_names root (List.cons_ne_nil _ _) hlast
    · -- From the second name on the path before is cleaned already.
      have hcleaned := (cleaned_cleanNames root).append hinit
      rw [ih hempty hinit, join_names _ (List.cons_ne_nil _ _) hlast, isAbsolute_ofNames hcleaned,
        cleanNames_ofNames hcleaned, List.append_assoc]

variable {root : String} {names names' : List String}

theorem cleanNames_walked (hnames : ∀ n ∈ names, IsName n) :
    cleanNames (walked root names) = cleanNames root ++ names := by
  by_cases hne : names = []
  · subst hne
    exact (List.append_nil _).symm
  · rw [walked_eq_ofNames root hne hnames, cleanNames_ofNames ((cleaned_cleanNames root).append hnames)]

theorem walked_inj (hnames : ∀ n ∈ names, IsName n) (hnames' : ∀ n ∈ names', IsName n) :
    walked root names = walked root names' ↔ names = names' := by
  constructor
  · intro h
    have hclean : cleanNames root ++ names = cleanNames root ++ names' := by
      rw [← cleanNames_walked hnames, h, cleanNames_walked hnames']
    exact List.append_cancel_left hclean
  · rintro rfl
    rfl

/-! ## Steps of a search -/

/-- The path of names, relative to the directory that is searched. -/
def relativePath (names : List String) : String := "/".intercalate names

theorem isExcluded_relativePath_nil (exclude : List String) : isExcluded (relativePath []) exclude = false := by
  rw [Bool.eq_false_iff, Ne, isExcluded_iff]
  rintro ⟨pattern, -, p, -, hne, hcovers⟩
  have hnames : names (relativePath []) = [""] := names_empty
  rw [hnames] at hcovers
  rcases hcovers with ⟨-, hmem⟩ | ⟨htwo, hstart⟩
  · exact hne (List.mem_singleton.mp hmem)
  · have hlen := hstart.length_le
    rw [List.length_singleton] at hlen
    omega

theorem relative_walked (hne : names ≠ []) (hnames : ∀ n ∈ names, IsName n) :
    relative root (walked root names) = relativePath names ∧ relativePath names ≠ "." := by
  have hpath : relativePath names = ofNames false names := by
    simp [relativePath, ofNames, hne]
  rw [relative_of_cleanNames (cleanNames_walked hnames), hpath]
  refine ⟨rfl, fun hdot => hne ?_⟩
  exact (ofNames_injective (Cleaned.of_isName hnames) (Cleaned.nil false) hdot).2

@[simp] theorem relative_self (root : String) : relative root root = "." :=
  relative_of_cleanNames (List.append_nil _).symm

/-- One step of a search: it opens a directory by the path that was made for it, unless the directory is
excluded, and comes to an entry of what it opened. -/
inductive Enters (t : FileTree) (cwd : Place) (root : String) (exclude : List String) :
    List String × Node → List String × Node → Prop
  | entry {names : List String} {place : Place} {name : String} {node : Node}
      (hkept : isExcluded (relativePath names) exclude = false)
      (hlook : t.look cwd (walked root names) true = .ok (place, .directory))
      (hget : t.get? (place ++ [name]) = some node) :
      Enters t cwd root exclude (names, .directory) (names ++ [name], node)

/-- An entry that a search comes to from another, or that entry itself. -/
abbrev Reaches (t : FileTree) (cwd : Place) (root : String) (exclude : List String) :
    List String × Node → List String × Node → Prop :=
  Relation.ReflTransGen (Enters t cwd root exclude)

/-- An entry that a search meets, with the names by which it comes there from where it starts. -/
def Met (t : FileTree) (cwd : Place) (root : String) (exclude names : List String) (node : Node) : Prop :=
  Reaches t cwd root exclude ([], .directory) (names, node)

variable {t : FileTree} {cwd place : Place} {extensions exclude files found : List String}
  {node node' : Node} {name : String}

theorem Reaches.exists_append {a b : List String × Node} (h : Reaches t cwd root exclude a b) :
    ∃ rest, b.1 = a.1 ++ rest := by
  induction h with
  | refl => exact ⟨[], (List.append_nil _).symm⟩
  | tail _ hstep ih =>
    cases hstep with
    | @entry _ _ name =>
      obtain ⟨rest, hrest⟩ := ih
      exact ⟨rest ++ [name], by rw [← List.append_assoc, ← hrest]⟩

theorem Reaches.isName (ht : t.WellFormed) {a b : List String × Node} (h : Reaches t cwd root exclude a b)
    (ha : ∀ n ∈ a.1, IsName n) : ∀ n ∈ b.1, IsName n := by
  induction h with
  | refl => exact ha
  | tail _ hstep ih =>
    cases hstep with
    | entry hkept hlook hget =>
      intro n hn
      rcases List.mem_append.mp hn with hn | hn
      · exact ih n hn
      · exact ht.isName_of_get? (by rw [hget]; simp) n (List.mem_append_right _ hn)

theorem Met.isName (ht : t.WellFormed) (h : Met t cwd root exclude names node) : ∀ n ∈ names, IsName n :=
  Reaches.isName ht h (by simp)

-- What is excluded, or no directory, leads nowhere.
theorem Reaches.eq_of_closed (hclosed : isExcluded (relativePath names) exclude = true ∨ node.isDirectory = false)
    {b : List String × Node} (h : Reaches t cwd root exclude (names, node) b) : b = (names, node) := by
  rcases Relation.ReflTransGen.cases_head h with heq | ⟨c, hstep, -⟩
  · exact heq.symm
  · cases hstep with
    | entry hkept =>
      rw [hkept] at hclosed
      simp [Node.isDirectory] at hclosed

/-- The entries of a directory are the first that a search comes to from there. -/
theorem reaches_directory_iff (ht : t.WellFormed) (hkept : isExcluded (relativePath names) exclude = false)
    (hlook : t.look cwd (walked root names) true = .ok (place, .directory)) {b : List String × Node} :
    Reaches t cwd root exclude (names, .directory) b ↔
      b = (names, .directory) ∨
        ∃ e ∈ t.children place, Reaches t cwd root exclude (names ++ [e.1], e.2) b := by
  unfold Reaches
  rw [Relation.ReflTransGen.cases_head_iff, eq_comm]
  apply or_congr_right
  constructor
  · rintro ⟨_, hstep, hreaches⟩
    cases hstep with
    | @entry _ place' name node _ hlook' hget =>
      obtain rfl : place = place' := by
        rw [hlook, Except.ok.injEq, Prod.mk.injEq] at hlook'
        exact hlook'.1
      exact ⟨(name, node), (mem_children ht).mpr hget, hreaches⟩
  · rintro ⟨⟨name, node⟩, hmem, hreaches⟩
    exact ⟨_, .entry hkept hlook ((mem_children ht).mp hmem), hreaches⟩

/-- What is met was listed in the directory above it. -/
theorem Met.exists_listed (hmet : Met t cwd root exclude (names ++ [name]) node) :
    ∃ place, t.look cwd (walked root names) true = .ok (place, .directory) ∧
      t.get? (place ++ [name]) = some node := by
  rcases Relation.ReflTransGen.cases_tail hmet with heq | ⟨_, -, hstep⟩
  · simp at heq
  · generalize hb : (names ++ [name], node) = b at hstep
    cases hstep with
    | entry hkept hlook hget =>
      obtain ⟨hnames, rfl⟩ := Prod.mk.inj hb
      obtain ⟨rfl, rfl⟩ := List.append_singleton_inj.mp hnames
      exact ⟨_, hlook, hget⟩

/-! ## How deep a search goes -/

-- A directory below the first level is opened at the place where it was listed.
theorem look_entered (hne : names ≠ []) (hnames : ∀ n ∈ names ++ [name], IsName n)
    (hlook : t.look cwd (walked root names) true = .ok (place, .directory))
    (hget : t.get? (place ++ [name]) = some .directory) :
    t.look cwd (walked root (names ++ [name])) true = .ok (place ++ [name], .directory) := by
  have hinit : ∀ n ∈ names, IsName n := fun n hn => hnames n (List.mem_append_left _ hn)
  rw [walked_eq_ofNames root hne hinit] at hlook
  rw [walked_eq_ofNames root (by simp) hnames, ← List.append_assoc]
  exact look_directory_in ((cleaned_cleanNames root).append hinit) hlook (hnames name (by simp)) hget

theorem Met.length_le_place (ht : t.WellFormed) (hmet : Met t cwd root exclude names node)
    (hlook : t.look cwd (walked root names) true = .ok (place, .directory)) (hnode : node = .directory) :
    names.length ≤ place.length + 1 := by
  unfold Met at hmet
  generalize hb : (names, node) = b at hmet
  induction hmet generalizing names node place with
  | refl =>
    obtain ⟨rfl, -⟩ := Prod.mk.inj hb
    simp
  | tail hreaches hstep ih =>
    cases hstep with
    | @entry init above name _ _ habove hget =>
      obtain ⟨rfl, rfl⟩ := Prod.mk.inj hb
      subst hnode
      by_cases hinit : init = []
      · subst hinit
        simp
      · have hname : ∀ n ∈ init ++ [name], IsName n :=
          Met.isName ht (hreaches.tail (.entry ‹_› habove hget))
        rw [look_entered hinit hname habove hget, Except.ok.injEq, Prod.mk.injEq] at hlook
        have hlen := ih habove rfl rfl
        rw [← hlook.1, List.length_append, List.length_append, List.length_singleton]
        omega

theorem Met.length_le (ht : t.WellFormed) (hmet : Met t cwd root exclude names node) :
    names.length ≤ t.height + 1 := by
  rcases Relation.ReflTransGen.cases_tail hmet with heq | ⟨_, hreaches, hstep⟩
  · obtain ⟨rfl, -⟩ := Prod.mk.inj heq
    simp
  · cases hstep with
    | @entry init place name _ _ hlook hget =>
      have hinit := Met.length_le_place ht hreaches hlook rfl
      have hplace : (place ++ [name]).length ≤ t.height := length_le_height (by rw [hget]; simp)
      rw [List.length_append, List.length_singleton] at hplace ⊢
      omega

/-! ## What a search keeps -/

/-- An entry that is looked for by its own path alone: it is no directory, no pattern excludes its path, and
its name ends with one of the extensions. -/
def Wanted (extensions exclude : List String) (names : List String) (node : Node) : Prop :=
  node.isDirectory = false ∧ isExcluded (relativePath names) exclude = false ∧
    ∃ e ∈ wantedExtensions extensions, e ≠ "" ∧ ∃ stem, names.getLast? = some (stem ++ e)

theorem Wanted.ne_nil (h : Wanted extensions exclude names node) : names ≠ [] := by
  rintro rfl
  obtain ⟨-, -, e, -, -, stem, hlast⟩ := h
  cases hlast

theorem hasExtension_iff :
    hasExtension name extensions = true ↔ ∃ e ∈ extensions, e ≠ "" ∧ ∃ stem, name = stem ++ e := by
  unfold hasExtension
  rw [List.any_eq_true]
  simp only [Bool.and_eq_true, decide_eq_true_eq, endsWith_iff]

theorem wanted_concat_iff :
    Wanted extensions exclude (names ++ [name]) node ↔
      node.isDirectory = false ∧ isExcluded (relativePath (names ++ [name])) exclude = false ∧
        hasExtension name (wantedExtensions extensions) = true := by
  unfold Wanted
  rw [hasExtension_iff, List.getLast?_concat]
  simp only [Option.some.injEq]

theorem finder_entry (hnames : ∀ n ∈ names ++ [name], IsName n) :
    (finder root extensions exclude).entry (walked root (names ++ [name])) name node files =
      if isExcluded (relativePath (names ++ [name])) exclude then
        (if node.isDirectory then .skip else .goOn, files)
      else if node.isDirectory || !hasExtension name extensions then (.goOn, files)
      else (.goOn, files ++ [walked root (names ++ [name])]) := by
  have hne : names ++ [name] ≠ [] := by simp
  obtain ⟨hrelative, hdot⟩ := @relative_walked root _ hne hnames
  unfold finder
  simp only [hrelative, if_neg hdot]

/-! ## Walks -/

/-- What a walk through some entries and all that is below them takes: the paths of the wanted entries that it
comes to, each once.  It comes to all, since every directory on its way can be opened. -/
structure Finds (t : FileTree) (cwd : Place) (root : String) (extensions exclude : List String)
    (starts : List (List String × Node)) (found : List String) : Prop where
  nodup : found.Nodup
  mem_iff : ∀ path, path ∈ found ↔ ∃ start ∈ starts, ∃ names node,
    Reaches t cwd root exclude start (names, node) ∧ Wanted extensions exclude names node ∧
      path = walked root names
  opens : ∀ start ∈ starts, ∀ names, Reaches t cwd root exclude start (names, .directory) →
    isExcluded (relativePath names) exclude = false →
      ∃ place, t.look cwd (walked root names) true = .ok (place, .directory)

/-- Why a walk through some entries and all that is below them ends early: a directory cannot be opened. -/
def Blocked (t : FileTree) (cwd : Place) (root : String) (exclude : List String)
    (starts : List (List String × Node)) (f : Failure) : Prop :=
  ∃ start ∈ starts, ∃ names e, Reaches t cwd root exclude start (names, .directory) ∧
    isExcluded (relativePath names) exclude = false ∧ t.list cwd (walked root names) = .error e ∧
      f = .base (.file e)

/-- How a walk through some entries goes, with files that were taken before. -/
inductive Goes (t : FileTree) (cwd : Place) (root : String) (extensions exclude : List String)
    (starts : List (List String × Node)) (files : List String) : Advice Failure × List String → Prop
  | through {found : List String} (h : Finds t cwd root extensions exclude starts found) :
      Goes t cwd root extensions exclude starts files (.goOn, files ++ found)
  | ended {f : Failure} (h : Blocked t cwd root exclude starts f) (taken : List String) :
      Goes t cwd root extensions exclude starts files (.stop f, taken)

variable {start : List String × Node} {starts : List (List String × Node)}

theorem Goes.nothing (h : Finds t cwd root extensions exclude starts []) :
    Goes t cwd root extensions exclude starts files (.goOn, files) := by
  have hgoes : Goes t cwd root extensions exclude starts files (.goOn, files ++ []) := .through h
  rwa [List.append_nil] at hgoes

theorem Finds.nil : Finds t cwd root extensions exclude [] [] := ⟨.nil, by simp, by simp⟩

theorem Finds.cons {more : List String} (hstart : Finds t cwd root extensions exclude [start] found)
    (hstarts : Finds t cwd root extensions exclude starts more) (hapart : found.Disjoint more) :
    Finds t cwd root extensions exclude (start :: starts) (found ++ more) where
  nodup := hstart.nodup.append hstarts.nodup hapart
  mem_iff path := by
    rw [List.mem_append, hstart.mem_iff, hstarts.mem_iff]
    simp only [List.mem_cons, List.not_mem_nil, or_false, exists_eq_left, or_and_right, exists_or]
  opens first hfirst := by
    rcases List.mem_cons.mp hfirst with rfl | hrest
    · exact hstart.opens first (List.mem_singleton_self _)
    · exact hstarts.opens first hrest

-- An entry behind which nothing is reached is looked at alone.
theorem Finds.closed (hclosed : isExcluded (relativePath names) exclude = true ∨ node.isDirectory = false)
    (hnodup : found.Nodup)
    (hmem : ∀ path, path ∈ found ↔ Wanted extensions exclude names node ∧ path = walked root names) :
    Finds t cwd root extensions exclude [(names, node)] found where
  nodup := hnodup
  mem_iff path := by
    rw [hmem]
    constructor
    · intro h
      exact ⟨_, List.mem_singleton_self _, names, node, .refl, h⟩
    · rintro ⟨_, hstart, names', node', hreaches, h⟩
      obtain rfl := List.mem_singleton.mp hstart
      obtain ⟨rfl, rfl⟩ := Prod.mk.inj (Reaches.eq_of_closed hclosed hreaches)
      exact h
  opens := by
    intro start hstart names' hreaches hkept
    obtain rfl := List.mem_singleton.mp hstart
    obtain ⟨rfl, rfl⟩ := Prod.mk.inj (Reaches.eq_of_closed hclosed hreaches)
    rw [hkept] at hclosed
    simp [Node.isDirectory] at hclosed

theorem Finds.directory (ht : t.WellFormed) (hkept : isExcluded (relativePath names) exclude = false)
    (hlook : t.look cwd (walked root names) true = .ok (place, .directory))
    (h : Finds t cwd root extensions exclude ((t.children place).map fun e => (names ++ [e.1], e.2)) found) :
    Finds t cwd root extensions exclude [(names, .directory)] found where
  nodup := h.nodup
  mem_iff path := by
    rw [h.mem_iff]
    constructor
    · rintro ⟨_, hstart, names', node', hreaches, hwanted⟩
      obtain ⟨e, he, rfl⟩ := List.mem_map.mp hstart
      exact ⟨_, List.mem_singleton_self _, names', node',
        (reaches_directory_iff ht hkept hlook).mpr (.inr ⟨e, he, hreaches⟩), hwanted⟩
    · rintro ⟨_, hstart, names', node', hreaches, hwanted⟩
      obtain rfl := List.mem_singleton.mp hstart
      rcases (reaches_directory_iff ht hkept hlook).mp hreaches with heq | ⟨e, he, hreaches⟩
      · obtain ⟨-, rfl⟩ := Prod.mk.inj heq
        cases hwanted.1.1
      · exact ⟨_, List.mem_map_of_mem he, names', node', hreaches, hwanted⟩
  opens := by
    intro start hstart names' hreaches hkept'
    obtain rfl := List.mem_singleton.mp hstart
    rcases (reaches_directory_iff ht hkept hlook).mp hreaches with heq | ⟨e, he, hreaches⟩
    · obtain ⟨rfl, -⟩ := Prod.mk.inj heq
      exact ⟨place, hlook⟩
    · exact h.opens _ (List.mem_map_of_mem he) names' hreaches hkept'

theorem Blocked.directory (ht : t.WellFormed) (hkept : isExcluded (relativePath names) exclude = false)
    (hlook : t.look cwd (walked root names) true = .ok (place, .directory)) {f : Failure}
    (h : Blocked t cwd root exclude ((t.children place).map fun e => (names ++ [e.1], e.2)) f) :
    Blocked t cwd root exclude [(names, .directory)] f := by
  obtain ⟨_, hstart, names', e, hreaches, hrest⟩ := h
  obtain ⟨child, hchild, rfl⟩ := List.mem_map.mp hstart
  exact ⟨_, List.mem_singleton_self _, names', e,
    (reaches_directory_iff ht hkept hlook).mpr (.inr ⟨child, hchild, hreaches⟩), hrest⟩

theorem Blocked.mono {more : List (List String × Node)} {f : Failure} (hsub : starts ⊆ more)
    (h : Blocked t cwd root exclude starts f) : Blocked t cwd root exclude more f := by
  obtain ⟨start, hstart, hrest⟩ := h
  exact ⟨start, hsub hstart, hrest⟩

-- The paths below two entries of one directory differ in the names of the entries.
theorem Finds.disjoint (ht : t.WellFormed) {entry : String × Node} {entries : List (String × Node)}
    {more : List String} (hnames : ∀ e ∈ entry :: entries, ∀ n ∈ names ++ [e.1], IsName n)
    (hnew : entry.1 ∉ entries.map Prod.fst)
    (hfirst : Finds t cwd root extensions exclude [(names ++ [entry.1], entry.2)] found)
    (hrest : Finds t cwd root extensions exclude (entries.map fun e => (names ++ [e.1], e.2)) more) :
    found.Disjoint more := by
  intro path hpath hpath'
  obtain ⟨_, hstart, names₁, _, hreaches₁, -, rfl⟩ := (hfirst.mem_iff path).mp hpath
  obtain rfl := List.mem_singleton.mp hstart
  obtain ⟨_, hstart, names₂, _, hreaches₂, -, hwalked⟩ := (hrest.mem_iff _).mp hpath'
  obtain ⟨e, he, rfl⟩ := List.mem_map.mp hstart
  have hsame : names₁ = names₂ :=
    (walked_inj (Reaches.isName ht hreaches₁ (hnames entry List.mem_cons_self))
      (Reaches.isName ht hreaches₂ (hnames e (List.mem_cons_of_mem _ he)))).mp hwalked
  obtain ⟨rest₁, hrest₁⟩ := Reaches.exists_append hreaches₁
  obtain ⟨rest₂, hrest₂⟩ := Reaches.exists_append hreaches₂
  have hnext : entry.1 = e.1 := by
    have hboth := hrest₁.symm.trans (hsame.trans hrest₂)
    simp only [List.append_assoc, List.append_cancel_left_eq, List.singleton_append, List.cons.injEq] at hboth
    exact hboth.1
  exact hnew (hnext ▸ List.mem_map_of_mem he)

theorem walkEntries_goes (ht : t.WellFormed) {entries : List (String × Node)}
    {enter : String → String → Node → List String → Advice Failure × List String}
    (hnames : ∀ e ∈ entries, ∀ n ∈ names ++ [e.1], IsName n) (hnodup : (entries.map Prod.fst).Nodup)
    (henter : ∀ e ∈ entries, ∀ files, Goes t cwd root extensions exclude [(names ++ [e.1], e.2)] files
      (enter (walked root (names ++ [e.1])) e.1 e.2 files)) (files : List String) :
    Goes t cwd root extensions exclude (entries.map fun e => (names ++ [e.1], e.2)) files
      (walkEntries enter (walked root names) entries files) := by
  induction entries generalizing files with
  | nil =>
    exact .nothing .nil
  | cons e entries ih =>
    obtain ⟨hnew, hnodup⟩ := List.nodup_cons.mp hnodup
    have hfirst := henter e List.mem_cons_self files
    rw [walkEntries, ← walked_concat]
    generalize enter (walked root (names ++ [e.1])) e.1 e.2 files = out at hfirst ⊢
    cases hfirst with
    | ended h taken => exact .ended (h.mono (by simp)) taken
    | @through found hfound =>
      have hrest := ih (fun e' he' => hnames e' (List.mem_cons_of_mem _ he')) hnodup
        (fun e' he' => henter e' (List.mem_cons_of_mem _ he')) (files ++ found)
      dsimp only
      generalize walkEntries enter (walked root names) entries (files ++ found) = out at hrest ⊢
      cases hrest with
      | ended h taken => exact .ended (h.mono (List.subset_cons_self _ _)) taken
      | through hmore =>
        rw [List.append_assoc]
        exact .through (hfound.cons hmore (Finds.disjoint ht hnames hnew hfound hmore))

theorem walkDirectory_goes (ht : t.WellFormed) (hnames : ∀ n ∈ names, IsName n)
    (hkept : isExcluded (relativePath names) exclude = false)
    {enter : String → String → Node → List String → Advice Failure × List String}
    (henter : ∀ place, t.look cwd (walked root names) true = .ok (place, .directory) →
      ∀ e ∈ t.children place, ∀ files, Goes t cwd root extensions exclude [(names ++ [e.1], e.2)] files
        (enter (walked root (names ++ [e.1])) e.1 e.2 files)) (files wanted : List String) :
    Goes t cwd root extensions exclude [(names, .directory)] files
      (t.walkDirectory cwd (finder root wanted exclude) enter (walked root names) files) := by
  unfold walkDirectory
  cases hlist : t.list cwd (walked root names) with
  | error e => exact .ended ⟨_, List.mem_singleton_self _, names, e, .refl, hkept, hlist, rfl⟩ files
  | ok entries =>
    obtain ⟨place, hlook, rfl⟩ := list_eq_ok_iff.mp hlist
    have hnames' : ∀ e ∈ t.children place, ∀ n ∈ names ++ [e.1], IsName n := by
      intro e he n hn
      rcases List.mem_append.mp hn with hn | hn
      · exact hnames n hn
      · have hget := (mem_children ht).mp he
        exact ht.isName_of_get? (by rw [hget]; simp) n (List.mem_append_right _ hn)
    have hgoes := walkEntries_goes ht hnames' (nodup_children ht place) (henter place hlook) files
    dsimp only
    generalize walkEntries enter (walked root names) (t.children place) files = out at hgoes ⊢
    cases hgoes with
    | ended h taken => exact .ended (h.directory ht hkept hlook) taken
    | through h => exact .through (h.directory ht hkept hlook)

theorem walkFrom_goes (ht : t.WellFormed) {depth : Nat}
    (hmet : Met t cwd root exclude (names ++ [name]) node)
    (hdepth : t.height + 2 ≤ (names ++ [name]).length + depth) (files : List String) :
    Goes t cwd root extensions exclude [(names ++ [name], node)] files
      (t.walkFrom cwd (finder root (wantedExtensions extensions) exclude) depth
        (walked root (names ++ [name])) name node files) := by
  induction depth generalizing names name node files with
  | zero =>
    have hlen := hmet.length_le ht
    omega
  | succ depth ih =>
    have hnames := hmet.isName ht
    rw [walkFrom, finder_entry hnames]
    by_cases hexcluded : isExcluded (relativePath (names ++ [name])) exclude = true
    · -- Neither an excluded directory nor an excluded file adds anything.
      have hfinds : Finds t cwd root extensions exclude [(names ++ [name], node)] [] :=
        .closed (.inl hexcluded) .nil fun path => by simp [wanted_concat_iff, hexcluded]
      rw [if_pos hexcluded]
      by_cases hdir : node.isDirectory = true
      · simpa [hdir] using Goes.nothing hfinds
      · simpa [hdir] using Goes.nothing hfinds
    · rw [if_neg hexcluded]
      rw [Bool.not_eq_true] at hexcluded
      by_cases hdir : node.isDirectory = true
      · obtain rfl := Node.eq_directory hdir
        simp only [hdir, Bool.true_or, if_true]
        apply walkDirectory_goes ht hnames hexcluded
        intro place hlook e he files'
        apply ih (hmet.tail (.entry hexcluded hlook ((mem_children ht).mp he)))
        rw [List.length_append, List.length_singleton]
        omega
      · rw [Bool.not_eq_true] at hdir
        by_cases hext : hasExtension name (wantedExtensions extensions) = true
        · have hfinds : Finds t cwd root extensions exclude [(names ++ [name], node)]
              [walked root (names ++ [name])] :=
            .closed (.inr hdir) (List.nodup_singleton _) fun path => by
              simp [wanted_concat_iff, hexcluded, hdir, hext]
          simp only [hdir, hext, Bool.not_true, Bool.or_self, Bool.false_eq_true, if_false]
          exact .through hfinds
        · have hfinds : Finds t cwd root extensions exclude [(names ++ [name], node)] [] :=
            .closed (.inr hdir) .nil fun path => by simp [wanted_concat_iff, hext]
          simpa [hdir, hext] using Goes.nothing hfinds

/-! ## Searches -/

theorem finder_root (wanted : List String) :
    (finder root wanted exclude).entry root name node files =
      (if node.isDirectory then .goOn else .stop (.told s!"{root} is not a directory"), files) := by
  unfold finder
  simp only [relative_self, if_true]

theorem gather_of_look (ht : t.WellFormed) (hroot : t.look cwd root false = .ok (place, .directory))
    (extensions exclude : List String) :
    (∃ found, gather t cwd root extensions exclude = .ok found ∧
      Finds t cwd root extensions exclude [([], .directory)] found) ∨
    ∃ f, gather t cwd root extensions exclude = .error f ∧
      Blocked t cwd root exclude [([], .directory)] f := by
  have hkept := isExcluded_relativePath_nil exclude
  have hgoes : Goes t cwd root extensions exclude [([], .directory)] []
      (t.walkFrom cwd (finder root (wantedExtensions extensions) exclude) (t.height + 2) root
        (base root) .directory []) := by
    rw [walkFrom, finder_root]
    refine walkDirectory_goes ht (by simp) hkept ?_ [] (wantedExtensions extensions)
    intro place hlook e he files
    apply walkFrom_goes ht (.single (.entry hkept hlook ((mem_children ht).mp he)))
    rw [List.length_append, List.length_singleton]
    omega
  unfold gather walk
  rw [hroot]
  dsimp only
  generalize t.walkFrom cwd _ _ root _ _ _ = out at hgoes ⊢
  cases hgoes with
  | through h => exact .inl ⟨_, rfl, h⟩
  | ended h taken => exact .inr ⟨_, rfl, h⟩

theorem look_of_gather (h : gather t cwd root extensions exclude = .ok found) :
    ∃ place, t.look cwd root false = .ok (place, .directory) := by
  unfold gather walk at h
  rcases hlook : t.look cwd root false with e | ⟨place, node⟩
  · rw [hlook] at h
    cases h
  · rw [hlook] at h
    by_cases hdir : node.isDirectory = true
    · rw [Node.eq_directory hdir]
      exact ⟨place, rfl⟩
    · dsimp only at h
      rw [walkFrom, finder_root, if_neg hdir] at h
      cases h

theorem discover_of_gather (h : gather t cwd root extensions exclude = .ok found) :
    discover t cwd root extensions exclude = .ok (found.mergeSort (· ≤ ·)) := by
  rw [discover, h]

theorem discover_eq_ok (ht : t.WellFormed) (h : discover t cwd root extensions exclude = .ok files) :
    (∃ place, t.look cwd root false = .ok (place, .directory)) ∧
      ∃ found, Finds t cwd root extensions exclude [([], .directory)] found ∧
        files = found.mergeSort (· ≤ ·) := by
  cases hgather : gather t cwd root extensions exclude with
  | error f =>
    rw [discover, hgather] at h
    cases h
  | ok found =>
    obtain ⟨place, hroot⟩ := look_of_gather hgather
    rw [discover_of_gather hgather] at h
    refine ⟨⟨place, hroot⟩, found, ?_, (Except.ok.inj h).symm⟩
    rcases gather_of_look ht hroot extensions exclude with ⟨found', heq, hfinds⟩ | ⟨f, heq, -⟩
    · rw [hgather] at heq
      rwa [Except.ok.inj heq]
    · rw [hgather] at heq
      cases heq

/-- A search gives the paths of the wanted entries that it meets. -/
theorem mem_discover (ht : t.WellFormed) (h : discover t cwd root extensions exclude = .ok files)
    (path : String) :
    path ∈ files ↔ ∃ names node, Met t cwd root exclude names node ∧
      Wanted extensions exclude names node ∧ path = walked root names := by
  obtain ⟨-, found, hfinds, rfl⟩ := discover_eq_ok ht h
  rw [List.mem_mergeSort, hfinds.mem_iff]
  simp only [List.mem_singleton, exists_eq_left, Met]

/-- Every path that a search gives is that of names below the directory, the last with an extension that
is looked for. -/
theorem exists_names_of_mem (ht : t.WellFormed)
    (h : discover t cwd root extensions exclude = .ok files) {file : String} (hf : file ∈ files) :
    ∃ d b, (∀ n ∈ d ++ [b], IsName n) ∧ hasExtension b (wantedExtensions extensions) = true ∧
      file = ofNames (isAbsolute root) (cleanNames root ++ (d ++ [b])) := by
  obtain ⟨names, node, hmet, hwanted, rfl⟩ := (mem_discover ht h file).mp hf
  obtain ⟨d, b, rfl⟩ := (List.eq_nil_or_concat' names).resolve_left hwanted.ne_nil
  have hnames := hmet.isName ht
  exact ⟨d, b, hnames, (wanted_concat_iff.mp hwanted).2.2, walked_eq_ofNames root (by simp) hnames⟩

/-! ## The order of what is found -/

/-- A search gives every path once, in increasing order. -/
theorem discover_increasing (ht : t.WellFormed)
    (h : discover t cwd root extensions exclude = .ok files) : files.Pairwise (· < ·) := by
  obtain ⟨-, found, hfinds, rfl⟩ := discover_eq_ok ht h
  exact pairwise_lt_mergeSort (fun file => file) hfinds.nodup

end SolidityAst.Batch
