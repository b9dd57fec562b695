import SolidityAst.Proofs.FileTree.Unlinked

/-!
What a place has no part in.

A look-up that does not pass a place goes the same way whatever stands there.  That it does not is said by taking
the node away: what is still found then is found in every tree that has the same nodes elsewhere.
-/
namespace SolidityAst.FileTree

open SolidityAst.Path

variable {t u : FileTree} {how : Lookup} {links : Nat} {here place p cwd : Place} {path : String}

/-! ## Trees that differ at one place -/

@[simp] theorem get?_erase (t : FileTree) (hp : place ≠ []) (q : Place) :
    (t.erase place).get? q = if q = place then none else t.get? q := by
  unfold get? erase
  by_cases hq : q = []
  · rw [if_pos hq, if_pos hq, if_neg fun h => hp (h.symm.trans hq)]
  · rw [if_neg hq, if_neg hq, Assoc.find?_erase]

theorem erase_of_get?_none (h : t.get? place = none) : t.erase place = t := by
  unfold get? at h
  rw [if_neg (ne_nil_of_get?_none h)] at h
  unfold erase
  rw [Assoc.erase_of_find?_none h]

theorem Extends.erase (h : Extends t u) (hp : place ≠ []) : Extends (t.erase place) (u.erase place) := by
  intro q node hq
  rw [get?_erase t hp] at hq
  rw [get?_erase u hp]
  split at hq
  · cases hq
  · rename_i hne
    rw [if_neg hne, h q node hq]

/-- The second tree is the first with perhaps something else at a place, but no directory. -/
structure Elsewhere (t u : FileTree) (place : Place) : Prop where
  wellFormed : u.WellFormed
  nodes : ∀ q, q ≠ place → u.get? q = t.get? q
  notDirectory : u.get? place ≠ some .directory

namespace Elsewhere

theorem refl (ht : t.WellFormed) (h : t.get? place ≠ some .directory) : Elsewhere t t place :=
  ⟨ht, fun _ _ => rfl, h⟩

theorem toExtends (h : Elsewhere t u place) (hp : place ≠ []) : Extends (t.erase place) u := by
  intro q node hq
  rw [get?_erase t hp] at hq
  split at hq
  · cases hq
  · rename_i hne
    rw [h.nodes q hne, hq]

theorem insert {dir : Place} {name : String} {node : Node} (ht : t.WellFormed)
    (hdir : t.get? dir = some .directory) (hname : IsName name)
    (hnot : t.get? (dir ++ [name]) ≠ some .directory) (hnode : node ≠ .directory) :
    Elsewhere t (t.insert (dir ++ [name]) node) (dir ++ [name]) where
  wellFormed := ht.insert node hdir hname hnot
  nodes := by
    intro q hq
    simp [hq]
  notDirectory := by
    simpa using hnode

/-- A node at the place leaves nothing of what was there. -/
theorem insert_eq {dir : Place} {name : String} (h : Elsewhere t u (dir ++ [name])) (ht : t.WellFormed)
    (hdir : t.get? dir = some .directory) (hname : IsName name)
    (hnot : t.get? (dir ++ [name]) ≠ some .directory) (node : Node) :
    u.insert (dir ++ [name]) node = t.insert (dir ++ [name]) node := by
  have hdir' : u.get? dir = some .directory := by
    rw [h.nodes dir (by simp), hdir]
  apply (h.wellFormed.insert node hdir' hname h.notDirectory).ext (ht.insert node hdir hname hnot)
  intro q
  rw [get?_insert u node (by simp), get?_insert t node (by simp)]
  by_cases hq : q = dir ++ [name]
  · rw [if_pos hq, if_pos hq]
  · rw [if_neg hq, if_neg hq, h.nodes q hq]

-- Where the directory of the place is missing there is nothing to differ in.
theorem eq_of_missing {dir : Place} {name : String} (h : Elsewhere t u (dir ++ [name])) (ht : t.WellFormed)
    (hnone : t.get? dir = none) : u = t := by
  have hnone' : u.get? dir = none := by
    rw [h.nodes dir (by simp), hnone]
  apply h.wellFormed.ext ht
  intro q
  by_cases hq : q = dir ++ [name]
  · rw [hq, h.wellFormed.get?_append_none hnone', ht.get?_append_none hnone]
  · exact h.nodes q hq

end Elsewhere

/-! ## Look-ups of any path -/

theorem status_eq_ok_iff {node : Node} :
    t.status cwd path = .ok node ↔ ∃ place, t.locate cwd path true = .ok (.node place node) := by
  constructor
  · intro h
    rw [status, look] at h
    rcases hloc : t.locate cwd path true with e | ⟨found, node'⟩ | found
    · rw [hloc] at h
      cases h
    · rw [hloc] at h
      cases h
      exact ⟨found, rfl⟩
    · rw [hloc] at h
      cases h
  · rintro ⟨place, h⟩
    exact status_of_locate h

theorem read_eq_ok_iff {content : Bytes} :
    t.read cwd path = .ok content ↔
      ∃ place executable, t.locate cwd path true = .ok (.node place (.file content executable)) := by
  constructor
  · intro h
    rw [read] at h
    split at h
    · rename_i old executable hstatus
      cases h
      obtain ⟨place, hloc⟩ := status_eq_ok_iff.mp hstatus
      exact ⟨place, executable, hloc⟩
    · cases h
    · cases h
  · rintro ⟨place, executable, hloc⟩
    rw [read, status_of_locate hloc]

theorem read_extends {content : Bytes} (ht : Extends t u) (h : t.read cwd path = .ok content) :
    u.read cwd path = .ok content := by
  obtain ⟨place, executable, hloc⟩ := read_eq_ok_iff.mp h
  exact read_eq_ok_iff.mpr ⟨place, executable, locate_extends ht hloc⟩

/-- A file is only ever at the end of a look-up, so without it those that end elsewhere go on as before. -/
theorem Leads.erase {ns : List String} {node : Node} {content : Bytes} {executable : Bool}
    (h : Leads t how links here ns p node) (hp : place ≠ []) (hfile : t.get? place = some (.file content executable))
    (hne : p ≠ place) : Leads (t.erase place) how links here ns p node := by
  -- What is passed on the way is a directory or a link, and so is not at the place of the file.
  have hkept : ∀ {q found}, t.get? q = some found → q ≠ place → (t.erase place).get? q = some found := by
    intro q found hget hq
    rw [get?_erase t hp, if_neg hq, hget]
  have hdiffers : ∀ {q found}, t.get? q = some found → found ≠ .file content executable → q ≠ place := by
    rintro q found hget hfound rfl
    rw [hfile, Option.some.injEq] at hget
    exact hfound hget.symm
  induction h with
  | here how links here => exact .here how links here
  | dot _ ih => exact .dot (ih hne)
  | up _ ih => exact .up (ih hne)
  | into hdot hup hget _ ih => exact .into hdot hup (hkept hget (hdiffers hget (by simp))) (ih hne)
  | file hdot hup hget hlast => exact .file hdot hup (hkept hget hne) hlast
  | link hdot hup hget hlast => exact .link hdot hup (hkept hget hne) hlast
  | jump hdot hup hget hgoes htarget _ ih =>
    exact .jump hdot hup (hkept hget (hdiffers hget (by simp))) hgoes htarget (ih hne)

theorem locate_erase {last : Bool} {node : Node} {content : Bytes} {executable : Bool}
    (h : t.locate cwd path last = .ok (.node p node)) (hp : place ≠ [])
    (hfile : t.get? place = some (.file content executable)) (hne : p ≠ place) :
    (t.erase place).locate cwd path last = .ok (.node p node) := by
  rw [locate_eq_node_iff] at h ⊢
  exact ⟨h.1, h.2.erase hp hfile hne⟩

end SolidityAst.FileTree
