import SolidityAst.Proofs.FileTree.WellFormed
import SolidityAst.Proofs.Path.Parts

/-!
Looking up paths, one name after another.

`Leads` lists the ways in which a look-up comes to a node, and what is shown of look-ups that succeed is
shown by induction on them.  A look-up that comes to a directory can be taken apart there: names that
follow are looked up from that directory, with the links that are left.  It also goes the same way in every
tree that has at least the nodes of the first, which is how the steps of a longer operation see each other's
work.
-/
namespace SolidityAst.FileTree

open SolidityAst.Path Text

variable {t : FileTree} {how : Lookup} {links : Nat} {here place : Place}

/-! ## One name -/

/-- How a look-up goes on behind a link, with so many links still to be followed. -/
def behindLink (t : FileTree) (how : Lookup) :
    (links : Nat) → Place → String → List String → Except Errno Target
  | 0, _, _, _ => .error .linkLoop
  | links + 1, here, target, rest =>
    if target = "" then .error .noEntry
    else
      follow t { how with asDirectory := how.asDirectory || (rest.isEmpty && endsWithSlash target) }
        links (if isAbsolute target then [] else here) (lookupNames target ++ rest)

theorem follow_eq_descend (t : FileTree) (how : Lookup) (links : Nat) :
    follow t how links = descend t how (behindLink t how links) := by
  cases links <;> rfl

theorem follow_nil (t : FileTree) (how : Lookup) (links : Nat) (here : Place) :
    follow t how links here [] = .ok (.node here .directory) := by
  rw [follow_eq_descend, descend]

theorem follow_dot (t : FileTree) (how : Lookup) (links : Nat) (here : Place) (rest : List String) :
    follow t how links here ("." :: rest) = follow t how links here rest := by
  rw [follow_eq_descend, descend, if_pos rfl]

theorem follow_up (t : FileTree) (how : Lookup) (links : Nat) (here : Place) (rest : List String) :
    follow t how links here (".." :: rest) = follow t how links here.dropLast rest := by
  rw [follow_eq_descend, descend, if_neg (by decide), if_pos rfl]

theorem follow_name (t : FileTree) (how : Lookup) (links : Nat) (here : Place) (rest : List String)
    {name : String} (hdot : name ≠ ".") (hup : name ≠ "..") :
    follow t how links here (name :: rest) =
      match t.get? (here ++ [name]) with
      | none => if rest.isEmpty then .ok (.free (here ++ [name])) else .error .noEntry
      | some .directory => follow t how links (here ++ [name]) rest
      | some (.file content executable) =>
        if rest.isEmpty && !how.asDirectory then
          .ok (.node (here ++ [name]) (.file content executable))
        else .error .notDirectory
      | some (.link target) =>
        if rest.isEmpty && !how.follow && !how.asDirectory then
          .ok (.node (here ++ [name]) (.link target))
        else behindLink t how links here target rest := by
  rw [follow_eq_descend]
  cases hget : t.get? (here ++ [name]) with
  | none => simp only [descend, if_neg hdot, if_neg hup, hget]
  | some node => cases node <;> simp only [descend, if_neg hdot, if_neg hup, hget]

/-- What a directory has under a name. -/
def entry (t : FileTree) (here : Place) (name : String) : Target :=
  match t.get? (here ++ [name]) with
  | none => .free (here ++ [name])
  | some node => .node (here ++ [name]) node

theorem entry_of_none {name : String} (h : t.get? (here ++ [name]) = none) :
    t.entry here name = .free (here ++ [name]) := by
  rw [entry, h]

theorem entry_of_some {name : String} {node : Node} (h : t.get? (here ++ [name]) = some node) :
    t.entry here name = .node (here ++ [name]) node := by
  rw [entry, h]

-- The last name of a path, when a link there is not followed.
theorem follow_last (t : FileTree) (links : Nat) (here : Place) {name : String} (hname : IsName name) :
    follow t ⟨false, false⟩ links here [name] = .ok (t.entry here name) := by
  rw [follow_name t _ links here [] hname.2.1 hname.2.2.1, entry]
  rcases t.get? (here ++ [name]) with _ | _ | _ | _
  case some.directory => exact follow_nil _ _ _ _
  all_goals rfl

theorem follow_ups (t : FileTree) (how : Lookup) (links : Nat) (here : Place) {ns : List String}
    (h : ∀ n ∈ ns, n = "..") : ∃ place, follow t how links here ns = .ok (.node place .directory) := by
  induction ns generalizing here with
  | nil => exact ⟨here, follow_nil _ _ _ _⟩
  | cons n ns ih =>
    obtain rfl := h n List.mem_cons_self
    rw [follow_up]
    exact ih here.dropLast fun m hm => h m (List.mem_cons_of_mem _ hm)

/-! ## Look-ups that come to a node -/

/-- The ways in which a look-up comes to a node. -/
inductive Leads (t : FileTree) : Lookup → Nat → Place → List String → Place → Node → Prop
  | here (how : Lookup) (links : Nat) (here : Place) : Leads t how links here [] here .directory
  | dot {how links here ns place node} (h : Leads t how links here ns place node) :
      Leads t how links here ("." :: ns) place node
  | up {how links here ns place node} (h : Leads t how links here.dropLast ns place node) :
      Leads t how links here (".." :: ns) place node
  | into {how links here name ns place node} (hdot : name ≠ ".") (hup : name ≠ "..")
      (hget : t.get? (here ++ [name]) = some .directory)
      (h : Leads t how links (here ++ [name]) ns place node) :
      Leads t how links here (name :: ns) place node
  | file {how links here name content executable} (hdot : name ≠ ".") (hup : name ≠ "..")
      (hget : t.get? (here ++ [name]) = some (.file content executable))
      (hlast : how.asDirectory = false) :
      Leads t how links here [name] (here ++ [name]) (.file content executable)
  | link {how links here name target} (hdot : name ≠ ".") (hup : name ≠ "..")
      (hget : t.get? (here ++ [name]) = some (.link target))
      (hlast : how.follow = false ∧ how.asDirectory = false) :
      Leads t how links here [name] (here ++ [name]) (.link target)
  | jump {how links here name ns target place node} (hdot : name ≠ ".") (hup : name ≠ "..")
      (hget : t.get? (here ++ [name]) = some (.link target))
      (hgoes : (ns.isEmpty && !how.follow && !how.asDirectory) = false) (htarget : target ≠ "")
      (h : Leads t
        { how with asDirectory := how.asDirectory || (ns.isEmpty && endsWithSlash target) } links
        (if isAbsolute target then [] else here) (lookupNames target ++ ns) place node) :
      Leads t how (links + 1) here (name :: ns) place node

theorem leads_of_follow {ns : List String} {node : Node}
    (h : follow t how links here ns = .ok (.node place node)) :
    Leads t how links here ns place node := by
  -- The outer induction is on the links, which every jump uses up; the inner one is on the names.
  induction links using Nat.strongRecOn generalizing how here ns with
  | ind links ihlinks =>
  induction ns generalizing here with
  | nil =>
    rw [follow_nil, Except.ok.injEq, Target.node.injEq] at h
    obtain ⟨rfl, rfl⟩ := h
    exact .here how links here
  | cons name ns ih =>
    by_cases hdot : name = "."
    · subst hdot
      rw [follow_dot] at h
      exact .dot (ih h)
    by_cases hup : name = ".."
    · subst hup
      rw [follow_up] at h
      exact .up (ih h)
    rw [follow_name t _ links here ns hdot hup] at h
    cases hget : t.get? (here ++ [name]) with
    | none =>
      rw [hget] at h
      by_cases hns : ns.isEmpty <;> simp [hns] at h
    | some found =>
      rw [hget] at h
      cases found with
      | directory => exact .into hdot hup hget (ih h)
      | file content executable =>
        by_cases hc : ns.isEmpty && !how.asDirectory
        · simp only [hc, if_true, Except.ok.injEq, Target.node.injEq] at h
          rw [Bool.and_eq_true, List.isEmpty_iff, Bool.not_eq_true'] at hc
          obtain ⟨rfl, hlast⟩ := hc
          obtain ⟨rfl, rfl⟩ := h
          exact .file hdot hup hget hlast
        · simp [hc] at h
      | link target =>
        by_cases hc : ns.isEmpty && !how.follow && !how.asDirectory
        · simp only [hc, if_true, Except.ok.injEq, Target.node.injEq] at h
          rw [Bool.and_eq_true, Bool.and_eq_true, List.isEmpty_iff, Bool.not_eq_true',
            Bool.not_eq_true'] at hc
          obtain ⟨⟨rfl, hfollow⟩, hlast⟩ := hc
          obtain ⟨rfl, rfl⟩ := h
          exact .link hdot hup hget ⟨hfollow, hlast⟩
        · simp only [hc, Bool.false_eq_true, if_false] at h
          cases links with
          | zero => cases h
          | succ links =>
            rw [behindLink] at h
            by_cases htarget : target = ""
            · rw [if_pos htarget] at h
              cases h
            rw [if_neg htarget] at h
            exact .jump hdot hup hget (by simpa using hc) htarget
              (ihlinks links (Nat.lt_succ_self links) h)

namespace Leads

variable {ns : List String} {node : Node}

theorem follow_eq (h : Leads t how links here ns place node) :
    follow t how links here ns = .ok (.node place node) := by
  induction h with
  | here how links here => exact follow_nil t how links here
  | dot _ ih => rw [follow_dot, ih]
  | up _ ih => rw [follow_up, ih]
  | into hdot hup hget _ ih =>
    rw [follow_name t _ _ _ _ hdot hup, hget]
    exact ih
  | file hdot hup hget hlast =>
    rw [follow_name t _ _ _ _ hdot hup, hget]
    simp [hlast]
  | link hdot hup hget hlast =>
    rw [follow_name t _ _ _ _ hdot hup, hget]
    simp [hlast]
  | jump hdot hup hget hgoes htarget _ ih =>
    rw [follow_name t _ _ _ _ hdot hup, hget]
    simp only [hgoes, Bool.false_eq_true, if_false]
    rw [behindLink, if_neg htarget, ih]

/-- What a look-up comes to stands in the tree, if it starts at a directory. -/
theorem get?_eq (h : Leads t how links here ns place node) (ht : t.WellFormed)
    (hhere : t.get? here = some .directory) : t.get? place = some node := by
  induction h with
  | here => exact hhere
  | dot _ ih => exact ih hhere
  | up _ ih =>
    refine ih ?_
    rcases ht.get?_above (by rw [hhere]; simp) (List.dropLast_prefix _) with heq | hdir
    · rw [heq, hhere]
    · exact hdir
  | into _ _ hget _ ih => exact ih hget
  | file _ _ hget _ => exact hget
  | link _ _ hget _ => exact hget
  | @jump _ _ _ _ _ target _ _ _ _ _ _ _ _ ih =>
    refine ih ?_
    by_cases habs : isAbsolute target
    · simp [habs]
    · rw [if_neg habs, hhere]

/-- Names that follow after a directory are looked up from there, with the links that are left. -/
theorem follow_append (h : Leads t how links here ns place node) (hfollow : how.follow = true)
    (hnode : node = .directory) :
    ∃ left, ∀ how' rest, rest ≠ [] →
      follow t how' links here (ns ++ rest) = follow t how' left place rest := by
  induction h with
  | here how links here => exact ⟨links, fun how' rest _ => rfl⟩
  | dot _ ih =>
    obtain ⟨left, hleft⟩ := ih hfollow hnode
    refine ⟨left, fun how' rest hr => ?_⟩
    rw [List.cons_append, follow_dot, hleft how' rest hr]
  | up _ ih =>
    obtain ⟨left, hleft⟩ := ih hfollow hnode
    refine ⟨left, fun how' rest hr => ?_⟩
    rw [List.cons_append, follow_up, hleft how' rest hr]
  | into hdot hup hget _ ih =>
    obtain ⟨left, hleft⟩ := ih hfollow hnode
    refine ⟨left, fun how' rest hr => ?_⟩
    rw [List.cons_append, follow_name t _ _ _ _ hdot hup, hget]
    exact hleft how' rest hr
  | file => cases hnode
  | link => cases hnode
  | @jump _ _ _ _ ns _ _ _ hdot hup hget _ htarget _ ih =>
    obtain ⟨left, hleft⟩ := ih hfollow hnode
    refine ⟨left, fun how' rest hr => ?_⟩
    have hne : (ns ++ rest).isEmpty = false := by simp [hr]
    rw [List.cons_append, follow_name t _ _ _ _ hdot hup, hget]
    simp only [hne, Bool.false_and, Bool.false_eq_true, if_false]
    rw [behindLink, if_neg htarget, hne, Bool.false_and, Bool.or_false, ← List.append_assoc]
    exact hleft how' rest hr

end Leads

/-- Whatever stands in the first tree stands in the second. -/
def Extends (t t' : FileTree) : Prop := ∀ q node, t.get? q = some node → t'.get? q = some node

theorem extends_insert (node : Node) (h : t.get? place = none) : Extends t (t.insert place node) := by
  intro q node' hq
  rw [get?_insert t node (ne_nil_of_get?_none h)]
  have hne : q ≠ place := by
    rintro rfl
    rw [h] at hq
    cases hq
  rw [if_neg hne, hq]

/-- In a larger tree a look-up comes to the same node. -/
theorem Leads.mono {t' : FileTree} {ns : List String} {node : Node} (ht : Extends t t')
    (h : Leads t how links here ns place node) : Leads t' how links here ns place node := by
  induction h with
  | here how links here => exact .here how links here
  | dot _ ih => exact .dot ih
  | up _ ih => exact .up ih
  | into hdot hup hget _ ih => exact .into hdot hup (ht _ _ hget) ih
  | file hdot hup hget hlast => exact .file hdot hup (ht _ _ hget) hlast
  | link hdot hup hget hlast => exact .link hdot hup (ht _ _ hget) hlast
  | jump hdot hup hget hgoes htarget _ ih => exact .jump hdot hup (ht _ _ hget) hgoes htarget ih

/-! ## Paths -/

variable {cwd : Place} {path : String} {last : Bool}

theorem locate_eq_node_iff {node : Node} :
    t.locate cwd path last = .ok (.node place node) ↔
      path ≠ "" ∧ Leads t ⟨last, endsWithSlash path⟩ maxLinks (if isAbsolute path then [] else cwd)
        (lookupNames path) place node := by
  unfold locate
  by_cases hpath : path = ""
  · rw [if_pos hpath]
    simp [hpath]
  · rw [if_neg hpath]
    exact ⟨fun h => ⟨hpath, leads_of_follow h⟩, fun h => h.2.follow_eq⟩

theorem locate_extends {t' : FileTree} {node : Node} (ht : Extends t t')
    (h : t.locate cwd path last = .ok (.node place node)) :
    t'.locate cwd path last = .ok (.node place node) := by
  rw [locate_eq_node_iff] at h ⊢
  exact ⟨h.1, h.2.mono ht⟩

theorem look_eq_ok_iff {node : Node} :
    t.look cwd path last = .ok (place, node) ↔ t.locate cwd path last = .ok (.node place node) := by
  unfold look
  rcases t.locate cwd path last with e | ⟨p, n⟩ | p <;> simp

-- Following a link at the end makes no difference where there is none.
theorem Leads.followed {ns : List String} {node : Node} (h : Leads t how links here ns place node)
    (hnode : node = .directory) : Leads t { how with follow := true } links here ns place node := by
  induction h with
  | here how links here => exact .here _ links here
  | dot _ ih => exact .dot (ih hnode)
  | up _ ih => exact .up (ih hnode)
  | into hdot hup hget _ ih => exact .into hdot hup hget (ih hnode)
  | file => cases hnode
  | link => cases hnode
  | jump hdot hup hget _ htarget _ ih => exact .jump hdot hup hget (by simp) htarget (ih hnode)

theorem look_followed (h : t.look cwd path last = .ok (place, .directory)) :
    t.look cwd path true = .ok (place, .directory) := by
  rw [look_eq_ok_iff, locate_eq_node_iff] at h ⊢
  exact ⟨h.1, h.2.followed rfl⟩

/-- The directory from which a path is looked up. -/
def origin (cwd : Place) (rooted : Bool) : Place := if rooted then [] else cwd

theorem get?_origin (h : t.get? cwd = some .directory) (rooted : Bool) :
    t.get? (origin cwd rooted) = some .directory := by
  cases rooted with
  | true => exact get?_nil t
  | false => exact h

theorem get?_of_locate {node : Node} (ht : t.WellFormed) (hcwd : t.get? cwd = some .directory)
    (h : t.locate cwd path last = .ok (.node place node)) : t.get? place = some node := by
  rw [locate_eq_node_iff] at h
  exact h.2.get?_eq ht (get?_origin hcwd (isAbsolute path))

/-! ## Paths of cleaned names -/

variable {rooted : Bool} {ns : List String}

@[simp] theorem lookupNames_append_slash (p q : String) :
    lookupNames (p ++ "/" ++ q) = lookupNames p ++ lookupNames q := by
  unfold lookupNames
  simp

theorem lookupNames_of_noSlash {s : String} (hne : s ≠ "") (h : '/' ∉ s.toList) :
    lookupNames s = [s] := by
  unfold lookupNames
  rw [names_of_noSlash h]
  simp [hne]

@[simp] theorem lookupNames_empty : lookupNames "" = [] := by
  decide

theorem lookupNames_ofNames (h : Cleaned rooted ns) (hns : ns ≠ []) :
    lookupNames (ofNames rooted ns) = ns := by
  have hkeep : ns.filter (· != "") = ns := by
    rw [List.filter_eq_self]
    intro n hn
    simpa using (h.noSlash n hn).1
  have hjoined : lookupNames ("/".intercalate ns) = ns := by
    rw [lookupNames, names_intercalate hns, flatMap_names fun n hn => (h.noSlash n hn).2.2, hkeep]
  cases rooted with
  | true =>
    change lookupNames ("" ++ "/" ++ "/".intercalate ns) = ns
    rw [lookupNames_append_slash, lookupNames_empty, hjoined, List.nil_append]
  | false => simpa [ofNames, hns] using hjoined

theorem endsWithSlash_append (a : String) {b : String} (hne : b ≠ "") (h : '/' ∉ b.toList) :
    endsWithSlash (a ++ b) = false := by
  have hb : b.toList ≠ [] := by simpa using hne
  unfold endsWithSlash
  rw [String.toList_append, List.getLast?_append_of_ne_nil _ hb, List.getLast?_eq_some_getLast hb]
  have hlast : b.toList.getLast hb ≠ '/' := fun he => h (he ▸ List.getLast_mem hb)
  simpa using hlast

/-- A path of cleaned names is looked up name by name from its origin.  Only the root's path ends with
a slash. -/
theorem locate_ofNames (t : FileTree) (cwd : Place) (h : Cleaned rooted ns) (last : Bool) :
    t.locate cwd (ofNames rooted ns) last =
      follow t ⟨last, rooted && ns.isEmpty⟩ maxLinks (origin cwd rooted) ns := by
  unfold locate
  rw [if_neg (ofNames_ne_empty h), isAbsolute_ofNames h]
  rcases List.eq_nil_or_concat' ns with rfl | ⟨init, l, rfl⟩
  · cases rooted with
    | true =>
      have hnames : lookupNames (ofNames true []) = [] := by decide
      rw [hnames, follow_nil, follow_nil]
      rfl
    | false =>
      have hnames : lookupNames (ofNames false []) = ["."] := by decide
      rw [hnames, follow_dot, follow_nil, follow_nil]
      rfl
  · obtain ⟨hne, -, hl⟩ := h.noSlash l (by simp)
    rw [lookupNames_ofNames h (by simp), ofNames_concat, endsWithSlash_append _ hne hl]
    have hsome : (rooted && (init ++ [l]).isEmpty) = false := by simp
    rw [hsome]
    rfl

/-- The path of a new name beside the last name of a cleaned path.  In the current directory it is
written with a dot in front. -/
theorem locate_beside (t : FileTree) (cwd : Place) {init : List String} (h : Cleaned rooted init)
    {name : String} (hne : name ≠ "") (hslash : '/' ∉ name.toList) (last : Bool) :
    t.locate cwd ((if lead rooted init = "" then "./" else lead rooted init) ++ name) last =
      follow t ⟨last, false⟩ maxLinks (origin cwd rooted) (init ++ [name]) := by
  unfold locate
  rw [if_neg (by simp [hne]), endsWithSlash_append _ hne hslash]
  by_cases hi : init = []
  · subst hi
    cases rooted with
    | true =>
      have hpath : (if lead true [] = "" then "./" else lead true []) ++ name = "" ++ "/" ++ name := by
        simp [lead]
      rw [hpath, lookupNames_append_slash, lookupNames_of_noSlash hne hslash]
      simp [origin, isAbsolute, lookupNames_empty]
    | false =>
      have hpath : (if lead false [] = "" then "./" else lead false []) ++ name =
          "." ++ "/" ++ name := by
        simp [lead]
      rw [hpath, lookupNames_append_slash, lookupNames_of_noSlash hne hslash,
        lookupNames_of_noSlash (by decide) (by decide), List.singleton_append, follow_dot]
      simp [origin, isAbsolute]
  · have hlead : lead rooted init = ofNames rooted init ++ "/" := lead_of_ne_nil rooted hi
    have hpath : lead rooted init ≠ "" := by simp [hlead]
    rw [if_neg hpath, hlead, lookupNames_append_slash, lookupNames_of_noSlash hne hslash,
      lookupNames_ofNames h hi, String.append_assoc, isAbsolute_append _ (ofNames_ne_empty h),
      isAbsolute_ofNames h]
    rfl

/-! ## Names in a directory that a path leads to -/

variable {init : List String} {name : String}

theorem follow_in (h : Cleaned rooted init)
    (hdir : t.locate cwd (ofNames rooted init) true = .ok (.node place .directory))
    (hname : IsName name) :
    follow t ⟨false, false⟩ maxLinks (origin cwd rooted) (init ++ [name]) = .ok (t.entry place name) := by
  rw [locate_ofNames _ _ h] at hdir
  obtain ⟨left, hleft⟩ := (leads_of_follow hdir).follow_append rfl rfl
  rw [hleft _ _ (by simp), follow_last t left place hname]

theorem locate_in (h : Cleaned rooted init)
    (hdir : t.locate cwd (ofNames rooted init) true = .ok (.node place .directory))
    (hname : IsName name) :
    t.locate cwd (ofNames rooted (init ++ [name])) false = .ok (t.entry place name) := by
  have hcleaned : Cleaned rooted (init ++ [name]) := h.append (by simpa using hname)
  have hsome : (rooted && (init ++ [name]).isEmpty) = false := by simp
  rw [locate_ofNames _ _ hcleaned, hsome, follow_in h hdir hname]

theorem locate_directory_in (h : Cleaned rooted init)
    (hdir : t.locate cwd (ofNames rooted init) true = .ok (.node place .directory))
    (hname : IsName name) (hget : t.get? (place ++ [name]) = some .directory) :
    t.locate cwd (ofNames rooted (init ++ [name])) true = .ok (.node (place ++ [name]) .directory) := by
  have hcleaned : Cleaned rooted (init ++ [name]) := h.append (by simpa using hname)
  rw [locate_ofNames _ _ h] at hdir
  obtain ⟨left, hleft⟩ := (leads_of_follow hdir).follow_append rfl rfl
  rw [locate_ofNames _ _ hcleaned, hleft _ _ (by simp),
    follow_name t _ left place [] hname.2.1 hname.2.2.1, hget]
  exact follow_nil _ _ _ _

end SolidityAst.FileTree
