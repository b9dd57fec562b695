import SolidityAst.Proofs.FileTree.Directories
import SolidityAst.Proofs.FileTree.Lexical

/-!
Trees without links.

Here every look-up that comes to a node comes to the place that the text of its path names, whether the
path is cleaned or not.  And directories cannot be made for one reason only: a file stands on the way.
-/
namespace SolidityAst.FileTree

open SolidityAst.Path Text

variable {t t' : FileTree} {how : Lookup} {links : Nat} {here place cwd : Place} {ns : List String}
  {rooted : Bool}

/-- There is no link anywhere. -/
def NoLinks (t : FileTree) : Prop := ∀ q target, t.get? q ≠ some (.link target)

def isLink : Node → Bool
  | .link _ => true
  | _ => false

theorem noLinks_of_entries (h : ∀ e ∈ t.entries, isLink e.2 = false) : NoLinks t := by
  intro q target hget
  by_cases hq : q = []
  · rw [hq] at hget
    cases hget
  · rw [get?, if_neg hq] at hget
    cases h _ (Assoc.mem_of_find? hget)

theorem NoLinks.linkFree (h : NoLinks t) (place : Place) : LinkFree t place :=
  fun q _ target => h q target

/-- Trees with the same nodes are equal. -/
theorem WellFormed.ext (ht : t.WellFormed) (ht' : t'.WellFormed) (h : ∀ q, t.get? q = t'.get? q) :
    t = t' := by
  have hroot : ∀ {s : FileTree}, s.WellFormed → Assoc.find? [] s.entries = none := fun hs =>
    Assoc.find?_eq_none.mpr fun e he => (hs.named e he).1
  have hentries : t.entries = t'.entries := by
    refine ht.increasing.ext ht'.increasing fun q => ?_
    by_cases hq : q = []
    · rw [hq, hroot ht, hroot ht']
    · have hget := h q
      rwa [get?, get?, if_neg hq, if_neg hq] at hget
  cases t
  cases t'
  rw [FileTree.mk.injEq]
  exact hentries

/-! ## The text tells the place -/

-- The names are taken one after another, just as in cleaning a path.
theorem Leads.reverse_eq {node : Node} (h : Leads t how links here ns place node) (hlinks : NoLinks t)
    (hhere : ∀ n ∈ here, IsName n) (hns : ∀ n ∈ ns, n ≠ "" ∧ '/' ∉ n.toList) :
    place.reverse = ns.foldl (cleanStep true) here.reverse := by
  induction h with
  | here => rfl
  | dot _ ih =>
    rw [List.foldl_cons, cleanStep_dot]
    exact ih hhere fun m hm => hns m (List.mem_cons_of_mem _ hm)
  | @up _ _ here _ _ _ _ ih =>
    have hback : ∀ n ∈ here.reverse, IsName n := fun n hn => hhere n (List.mem_reverse.mp hn)
    have hstep : cleanStep true here.reverse ".." = here.dropLast.reverse := by
      have hone := foldl_cleanStep_ups 1 hback
      rw [List.replicate_one, List.foldl_cons, List.foldl_nil, List.drop_one] at hone
      rw [hone, List.tail_reverse]
    rw [List.foldl_cons, hstep]
    exact ih (fun n hn => hhere n (List.dropLast_subset _ hn))
      fun m hm => hns m (List.mem_cons_of_mem _ hm)
  | @into _ _ here name _ _ _ hdot hup _ _ ih =>
    have hname : IsName name := by
      obtain ⟨hne, hslash⟩ := hns name List.mem_cons_self
      exact ⟨hne, hdot, hup, hslash⟩
    have hhere' : ∀ n ∈ here ++ [name], IsName n := by
      intro n hn
      rcases List.mem_append.mp hn with hn | hn
      · exact hhere n hn
      · rwa [List.mem_singleton.mp hn]
    rw [List.foldl_cons, cleanStep_isName _ _ hname,
      ih hhere' fun m hm => hns m (List.mem_cons_of_mem _ hm), List.reverse_append]
    rfl
  | @file _ _ here name _ _ hdot hup _ _ =>
    obtain ⟨hne, hslash⟩ := hns name List.mem_cons_self
    rw [List.foldl_cons, cleanStep_isName _ _ ⟨hne, hdot, hup, hslash⟩, List.reverse_append]
    rfl
  | link _ _ hget _ => exact absurd hget (hlinks _ _)
  | jump _ _ hget _ _ _ _ => exact absurd hget (hlinks _ _)

@[simp] theorem foldl_lookupNames (before : List String) (path : String) :
    (lookupNames path).foldl (cleanStep true) before = (names path).foldl (cleanStep true) before := by
  rw [lookupNames]
  induction names path generalizing before with
  | nil => rfl
  | cons n ns ih =>
    by_cases hn : n = ""
    · rw [List.filter_cons_of_neg (by simp [hn]), List.foldl_cons, hn, cleanStep_empty, ih]
    · rw [List.filter_cons_of_pos (by simp [hn]), List.foldl_cons, List.foldl_cons, ih]

/-- A look-up comes to the place that the text of the path names. -/
theorem look_eq_placeOf (hlinks : NoLinks t) (hcwd : ∀ n ∈ cwd, IsName n) {path : String} {last : Bool}
    {node : Node} (h : t.look cwd path last = .ok (place, node)) : place = placeOf cwd path := by
  have hloc := look_eq_ok_iff.mp h
  rw [locate] at hloc
  split at hloc
  · cases hloc
  have hnames : ∀ n ∈ lookupNames path, n ≠ "" ∧ '/' ∉ n.toList := by
    intro n hn
    rw [lookupNames, List.mem_filter] at hn
    exact ⟨by simpa using hn.2, notMem_of_mem_fields hn.1⟩
  have hleads := leads_of_follow hloc
  have hc : Cleaned true cwd := Cleaned.of_isName hcwd
  by_cases habs : isAbsolute path = true
  · rw [if_pos habs] at hleads
    have hplace := hleads.reverse_eq hlinks (fun _ hn => absurd hn List.not_mem_nil) hnames
    rw [placeOf, components_of_absolute habs, cleanNames, habs, ← List.reverse_inj, List.reverse_reverse,
      hplace, foldl_lookupNames]
    rfl
  · rw [if_neg habs] at hleads
    have hplace := hleads.reverse_eq hlinks hcwd hnames
    rw [placeOf, components_of_relative (isAbsolute_ofNames hc) (by simpa using habs),
      cleanNames_ofNames hc, ← List.reverse_inj, List.reverse_reverse, hplace, foldl_lookupNames]

/-! ## Files and directories at a place -/

-- What a path that only leads up names is a directory.
theorem get?_placeOf_ups (ht : t.WellFormed) (hcwd : t.get? cwd = some .directory)
    (h : Cleaned rooted ns) (hups : ∀ n ∈ ns, n = "..") {q : Place}
    (hq : q <+: placeOf cwd (ofNames rooted ns)) : t.get? q = some .directory := by
  have hnames : ∀ n ∈ cwd, IsName n := ht.isName_of_get? (by rw [hcwd]; simp)
  obtain ⟨k, down, rfl, hdown, hk⟩ := h
  obtain rfl : down = [] := by
    refine List.eq_nil_iff_forall_not_mem.mpr fun n hn => ?_
    exact (hdown n hn).2.2.1 (hups n (List.mem_append_right _ hn))
  rw [placeOf_ofNames hnames hdown hk, List.append_nil] at hq
  have horigin := get?_origin hcwd rooted
  rcases ht.get?_above (by rw [horigin]; simp) (hq.trans (List.take_prefix _ _)) with heq | hdir
  · rw [heq, horigin]
  · exact hdir

theorem locate_file (ht : t.WellFormed) (hcwd : t.get? cwd = some .directory) (h : Cleaned rooted ns)
    {content : Bytes} {executable : Bool}
    (hfile : t.get? (placeOf cwd (ofNames rooted ns)) = some (.file content executable)) :
    t.locate cwd (ofNames rooted ns) true =
      .ok (.node (placeOf cwd (ofNames rooted ns)) (.file content executable)) := by
  have hnames : ∀ n ∈ cwd, IsName n := ht.isName_of_get? (by rw [hcwd]; simp)
  by_cases hups : ∀ n ∈ ns, n = ".."
  · rw [get?_placeOf_ups ht hcwd h hups (List.prefix_refl _)] at hfile
    cases hfile
  obtain ⟨init, name, rfl⟩ : ∃ init name, ns = init ++ [name] := by
    rcases List.eq_nil_or_concat' ns with rfl | hns
    · simp at hups
    · exact hns
  have hname : IsName name := h.isName_or_ups.resolve_right hups
  have hinit := h.of_append
  rw [placeOf_concat hnames hinit hname] at hfile ⊢
  have hdir := locate_placeOf ht hnames hinit true (ht.rooted _ _ (by rw [hfile]; simp))
  rw [locate_ofNames _ _ hinit] at hdir
  obtain ⟨left, hleft⟩ := (leads_of_follow hdir).follow_append rfl rfl
  rw [locate_ofNames _ _ h, hleft _ _ (by simp), follow_name t _ left _ [] hname.2.1 hname.2.2.1, hfile]
  simp

/-! ## Making directories -/

/-- A file on the way is the reason why a directory cannot be made, and it alone tells the error. -/
theorem ensureFirst_blocked (hnames : ∀ n ∈ cwd, IsName n) (h : Cleaned rooted ns) {q : Place}
    (hq : q <+: placeOf cwd (ofNames rooted ns)) :
    ∃ path, ∀ {t : FileTree} {fuel : Nat} {content : Bytes} {executable : Bool}, t.WellFormed →
      NoLinks t → t.get? cwd = some .directory → t.get? q = some (.file content executable) →
      ns.length ≤ fuel →
      t.ensureFirst cwd (upward fuel (ofNames rooted ns)) =
        (.error ⟨"mkdir", path, .notDirectory⟩, t) := by
  induction ns using List.reverseRecOn with
  | nil =>
    refine ⟨"", fun ht _ hcwd hfile _ => ?_⟩
    rw [get?_placeOf_ups ht hcwd h (by simp) hq] at hfile
    cases hfile
  | append_singleton init name ih =>
    by_cases hups : ∀ n ∈ init ++ [name], n = ".."
    · refine ⟨"", fun ht _ hcwd hfile _ => ?_⟩
      rw [get?_placeOf_ups ht hcwd h hups hq] at hfile
      cases hfile
    have hname : IsName name := h.isName_or_ups.resolve_right hups
    have hinit := h.of_append
    rw [placeOf_concat hnames hinit hname] at hq
    rcases List.prefix_concat_iff.mp hq with rfl | hq
    · -- The file is what the path itself leads to.
      refine ⟨ofNames rooted (init ++ [name]), fun {t fuel _ _} ht _ hcwd hfile hfuel => ?_⟩
      obtain ⟨fuel, rfl⟩ := Nat.exists_eq_add_one_of_ne_zero (show fuel ≠ 0 by simp at hfuel; omega)
      rw [← placeOf_concat hnames hinit hname] at hfile
      rw [upward_concat fuel h, ensureFirst_of_node (locate_file ht hcwd h hfile)]
      rfl
    · -- The file is further up, so the path leads nowhere.
      obtain ⟨path, hpath⟩ := ih hinit hq
      refine ⟨path, fun {t fuel _ _} ht hlinks hcwd hfile hfuel => ?_⟩
      obtain ⟨fuel, rfl⟩ := Nat.exists_eq_add_one_of_ne_zero (show fuel ≠ 0 by simp at hfuel; omega)
      have hnode : ∀ place node,
          t.locate cwd (ofNames rooted (init ++ [name])) true ≠ .ok (.node place node) := by
        intro place node hloc
        obtain rfl := locate_linkFree hnames h (hlinks.linkFree _) hloc
        have hget := get?_of_locate ht hcwd hloc
        rw [placeOf_concat hnames hinit hname] at hget
        rcases ht.get?_above (by rw [hget]; simp) (hq.trans (List.prefix_append _ _)) with heq | hdir
        · have hlength := hq.length_le
          rw [heq, List.length_append, List.length_singleton] at hlength
          omega
        · rw [hdir] at hfile
          cases hfile
      rw [upward_concat fuel h]
      by_cases hi : init = []
      · subst hi
        rw [get?_placeOf_ups ht hcwd hinit (by simp) hq] at hfile
        cases hfile
      · rw [if_neg hi]
        rw [List.length_append, List.length_singleton] at hfuel
        exact ensureFirst_of_error hnode (hpath ht hlinks hcwd hfile (by omega))

theorem exists_file {node : Node} (hlinks : NoLinks t) (hget : t.get? place = some node)
    (hnot : ¬ node.isDirectory = true) :
    ∃ content executable, t.get? place = some (.file content executable) := by
  cases node with
  | directory => exact absurd rfl hnot
  | file content executable => exact ⟨content, executable, hget⟩
  | link target => exact absurd hget (hlinks _ _)

theorem ensureFirst_error (ht : t.WellFormed) (hlinks : NoLinks t) (hcwd : t.get? cwd = some .directory)
    (h : Cleaned rooted ns) {fuel : Nat} (hfuel : ns.length ≤ fuel) {e : FileError}
    (herr : t.ensureFirst cwd (upward fuel (ofNames rooted ns)) = (.error e, t')) :
    ∃ q content executable, q <+: placeOf cwd (ofNames rooted ns) ∧
      t.get? q = some (.file content executable) := by
  have hnames : ∀ n ∈ cwd, IsName n := ht.isName_of_get? (by rw [hcwd]; simp)
  induction ns using List.reverseRecOn generalizing fuel t' e with
  | nil =>
    have hparent : parent? (ofNames rooted []) = none := by cases rooted <;> decide
    rw [upward_of_parent?_none fuel hparent, ensureFirst_of_node (locate_origin t cwd rooted)] at herr
    cases herr
  | append_singleton init name ih =>
    rw [List.length_append, List.length_singleton] at hfuel
    obtain ⟨fuel, rfl⟩ := Nat.exists_eq_add_of_le' (Nat.le_of_add_left_le hfuel)
    rw [upward_concat fuel h] at herr
    by_cases hnode : ∃ place node, t.locate cwd (ofNames rooted (init ++ [name])) true =
        .ok (.node place node)
    · obtain ⟨place, node, hloc⟩ := hnode
      rw [ensureFirst_of_node hloc] at herr
      split at herr
      · cases herr
      · rename_i hnot
        obtain rfl := locate_linkFree hnames h (hlinks.linkFree _) hloc
        obtain ⟨content, executable, hfile⟩ := exists_file hlinks (get?_of_locate ht hcwd hloc) hnot
        exact ⟨_, content, executable, List.prefix_refl _, hfile⟩
    simp only [not_exists] at hnode
    have hname : IsName name := by
      rcases h.isName_or_ups with hname | hups
      · exact hname
      · have hdir := get?_placeOf_ups ht hcwd h hups (List.prefix_refl _)
        exact absurd (locate_placeOf ht hnames h true hdir) (hnode _ _)
    have hinit := h.of_append
    rw [placeOf_concat hnames hinit hname]
    -- What is above is made, or a file stands there.
    have habove : Ensures t cwd (ofNames rooted init)
        (t.ensureFirst cwd (if init = [] then [] else upward fuel (ofNames rooted init))) := by
      by_cases hi : init = []
      · rw [if_pos hi, hi]
        exact .inr ⟨t, _, rfl, Opened.refl ht (get?_origin hcwd rooted), locate_origin t cwd rooted⟩
      · rw [if_neg hi]
        exact ensureFirst_upward ht hcwd hinit (by omega)
    rcases habove with ⟨e', herr'⟩ | ⟨t'', place, hok, hopened, hloc⟩
    · by_cases hi : init = []
      · rw [if_pos hi] at herr'
        cases herr'
      · rw [if_neg hi] at herr'
        have hfuel' : init.length ≤ fuel := by omega
        obtain ⟨q, content, executable, hq, hfile⟩ := ih hinit hfuel' herr'
        exact ⟨q, content, executable, hq.trans (List.prefix_append _ _), hfile⟩
    obtain rfl := locate_linkFree hnames hinit (fun p hp target => by
      rw [hopened.nodes]
      split
      · simp
      · exact hlinks p target) hloc
    have hentry := locate_in hinit hloc hname
    cases hget : t''.get? (placeOf cwd (ofNames rooted init) ++ [name]) with
    | none =>
      rw [entry_of_none hget] at hentry
      rw [ensureFirst_of_free hnode hok hentry] at herr
      cases herr
    | some node =>
      obtain rfl := hopened.eq_of_get?_below ht (by rw [hget]; simp)
      rw [entry_of_some hget] at hentry
      rw [ensureFirst_of_occupied hnode hok hentry] at herr
      split at herr
      · cases herr
      · rename_i hnot
        obtain ⟨content, executable, hfile⟩ := exists_file hlinks hget hnot
        exact ⟨_, content, executable, List.prefix_refl _, hfile⟩

end SolidityAst.FileTree
