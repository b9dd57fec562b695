import SolidityAst.FileTree.Operations
import SolidityAst.Proofs.FileTree.Lookup

/-!
Making directories.

Missing directories are made from the top down.  Below a directory that was just made nothing can be in
the way, so either all of them are made or none is, and nothing else in the tree changes.
-/
namespace SolidityAst.FileTree

open SolidityAst.Path

variable {t t' : FileTree} {place : Place} {name : String}

/-- The second tree is the first with the directories made that were missing on the way to a place. -/
structure Opened (t t' : FileTree) (place : Place) : Prop where
  wellFormed : t'.WellFormed
  directory : t'.get? place = some .directory
  nodes : ∀ q, t'.get? q = if q <+: place ∧ t.get? q = none then some .directory else t.get? q
  unchanged : t.get? place ≠ none → t' = t

namespace Opened

theorem refl (ht : t.WellFormed) (h : t.get? place = some .directory) : Opened t t place where
  wellFormed := ht
  directory := h
  nodes := by
    intro q
    by_cases hq : q <+: place ∧ t.get? q = none
    · rcases ht.get?_above (by rw [h]; simp) hq.1 with rfl | hdir
      · rw [h] at hq
        cases hq.2
      · rw [hdir] at hq
        cases hq.2
    · rw [if_neg hq]
  unchanged _ := rfl

theorem toExtends (h : Opened t t' place) : Extends t t' := by
  intro q node hq
  rw [h.nodes q, if_neg (by rw [hq]; simp), hq]

-- Nothing lies below a place that was not there.
theorem eq_of_get?_below (h : Opened t t' place) (ht : t.WellFormed)
    (hbelow : t'.get? (place ++ [name]) ≠ none) : t' = t := by
  refine h.unchanged fun hnone => hbelow ?_
  have hnot : ¬ (place ++ [name] <+: place) := fun hp => by
    have := hp.length_le
    rw [List.length_append, List.length_singleton] at this
    omega
  rw [h.nodes, if_neg fun hc => hnot hc.1, ht.get?_append_none hnone]

theorem make (h : Opened t t' place) (hname : IsName name) (hfree : t'.get? (place ++ [name]) = none) :
    Opened t (t'.insert (place ++ [name]) .directory) (place ++ [name]) := by
  have hnone : t.get? (place ++ [name]) = none := by
    cases hget : t.get? (place ++ [name]) with
    | none => rfl
    | some node =>
      rw [h.toExtends _ _ hget] at hfree
      cases hfree
  refine ⟨h.wellFormed.insert .directory h.directory hname (by rw [hfree]; simp), ?_, ?_, ?_⟩
  · simp
  · intro q
    rw [get?_insert _ _ (by simp)]
    by_cases hq : q = place ++ [name]
    · rw [if_pos hq, hq, if_pos ⟨List.prefix_refl _, hnone⟩]
    · have hshorter : q <+: place ++ [name] ↔ q <+: place := by
        rw [List.prefix_concat_iff, or_iff_right hq]
      rw [if_neg hq, h.nodes]
      simp only [hshorter]
  · exact fun hne => absurd hnone hne

end Opened

/-! ## One directory after those above it -/

variable {cwd : Place} {path : String} {above : List String}

theorem status_of_locate {node : Node} (h : t.locate cwd path true = .ok (.node place node)) :
    t.status cwd path = .ok node := by
  rw [status, look, h]
  rfl

theorem status_of_not_node (h : ∀ place node, t.locate cwd path true ≠ .ok (.node place node)) :
    ∃ e, t.status cwd path = .error e := by
  rw [status, look]
  rcases hloc : t.locate cwd path true with e | ⟨found, node⟩ | found
  · exact ⟨e, rfl⟩
  · exact absurd hloc (h found node)
  · exact ⟨.noEntry, rfl⟩

theorem ensureFirst_of_node {node : Node} (h : t.locate cwd path true = .ok (.node place node)) :
    t.ensureFirst cwd (path :: above) =
      if node.isDirectory then (.ok (), t) else (.error ⟨"mkdir", path, .notDirectory⟩, t) := by
  rw [ensureFirst, status_of_locate h]

theorem ensureFirst_of_error (h : ∀ place node, t.locate cwd path true ≠ .ok (.node place node))
    {e : FileError} (habove : t.ensureFirst cwd above = (.error e, t')) :
    t.ensureFirst cwd (path :: above) = (.error e, t') := by
  obtain ⟨_, hstatus⟩ := status_of_not_node h
  rw [ensureFirst, hstatus]
  dsimp only
  rw [habove]

theorem ensureFirst_of_free (h : ∀ place node, t.locate cwd path true ≠ .ok (.node place node))
    (habove : t.ensureFirst cwd above = (.ok (), t'))
    (hfree : t'.locate cwd path false = .ok (.free place)) :
    t.ensureFirst cwd (path :: above) = (.ok (), t'.insert place .directory) := by
  obtain ⟨_, hstatus⟩ := status_of_not_node h
  rw [ensureFirst, hstatus]
  dsimp only
  rw [habove]
  dsimp only
  rw [makeDirectory, hfree]

theorem ensureFirst_of_occupied (h : ∀ place node, t.locate cwd path true ≠ .ok (.node place node))
    (habove : t.ensureFirst cwd above = (.ok (), t')) {node : Node}
    (hnode : t'.locate cwd path false = .ok (.node place node)) :
    t.ensureFirst cwd (path :: above) =
      if node.isDirectory then (.ok (), t') else (.error ⟨"mkdir", path, .occupied⟩, t') := by
  obtain ⟨_, hstatus⟩ := status_of_not_node h
  rw [ensureFirst, hstatus]
  dsimp only
  rw [habove]
  dsimp only
  rw [makeDirectory, hnode]
  dsimp only
  rw [look, hnode]
  cases node <;> rfl

/-! ## A directory and all above it -/

variable {rooted : Bool} {ns init : List String}

theorem upward_of_parent?_none (fuel : Nat) (h : parent? path = none) : upward fuel path = [path] := by
  cases fuel with
  | zero => rfl
  | succ fuel => rw [upward, h]

theorem upward_concat (fuel : Nat) (h : Cleaned rooted (init ++ [name])) :
    upward (fuel + 1) (ofNames rooted (init ++ [name])) =
      ofNames rooted (init ++ [name]) ::
        if init = [] then [] else upward fuel (ofNames rooted init) := by
  rw [upward, parent?_ofNames h]
  by_cases hi : init = []
  · rw [if_pos hi, if_pos hi]
  · rw [if_neg hi, if_neg hi]

theorem length_le_length_ofNames (h : Cleaned rooted ns) : ns.length ≤ (ofNames rooted ns).length := by
  induction ns using List.reverseRecOn with
  | nil => exact Nat.zero_le _
  | append_singleton init l ih =>
    have hl : 0 < l.length := by
      rw [Nat.pos_iff_ne_zero, Ne, String.length_eq_zero_iff]
      exact (h.noSlash l (by simp)).1
    rw [List.length_append, List.length_singleton, ofNames_concat, String.length_append]
    by_cases hi : init = []
    · rw [hi, List.length_nil]
      omega
    · have := ih h.of_append
      rw [lead_of_ne_nil _ hi, String.length_append]
      omega

/-- Making a directory fails and changes nothing, or makes the missing directories on the way to where
its path then leads. -/
def Ensures (t : FileTree) (cwd : Place) (path : String) (done : Except FileError Unit × FileTree) :
    Prop :=
  (∃ e, done = (.error e, t)) ∨
    ∃ t' place, done = (.ok (), t') ∧ Opened t t' place ∧
      t'.locate cwd path true = .ok (.node place .directory)

theorem locate_origin (t : FileTree) (cwd : Place) (rooted : Bool) :
    t.locate cwd (ofNames rooted []) true = .ok (.node (origin cwd rooted) .directory) := by
  rw [locate_ofNames _ _ (Cleaned.nil rooted), follow_nil]

-- One more directory, once those above it are made.
theorem ensureFirst_concat (ht : t.WellFormed) (hcwd : t.get? cwd = some .directory)
    (h : Cleaned rooted (init ++ [name]))
    (habove : Ensures t cwd (ofNames rooted init) (t.ensureFirst cwd above)) :
    Ensures t cwd (ofNames rooted (init ++ [name]))
      (t.ensureFirst cwd (ofNames rooted (init ++ [name]) :: above)) := by
  by_cases hnode : ∃ place node, t.locate cwd (ofNames rooted (init ++ [name])) true =
      .ok (.node place node)
  · obtain ⟨place, node, hloc⟩ := hnode
    rw [ensureFirst_of_node hloc]
    by_cases hdir : node.isDirectory
    · obtain rfl := Node.eq_directory hdir
      exact .inr ⟨t, place, rfl, Opened.refl ht (get?_of_locate ht hcwd hloc), hloc⟩
    · rw [if_neg hdir]
      exact .inl ⟨_, rfl⟩
  simp only [not_exists] at hnode
  have hname : IsName name := by
    rcases h.isName_or_ups with hname | hups
    · exact hname
    · -- A path that only leads up is always there.
      obtain ⟨place, hup⟩ := follow_ups t ⟨true, rooted && (init ++ [name]).isEmpty⟩ maxLinks
        (origin cwd rooted) hups
      rw [← locate_ofNames _ _ h] at hup
      exact absurd hup (hnode place _)
  rcases habove with ⟨e, herr⟩ | ⟨t', place, hok, hopened, hloc⟩
  · rw [ensureFirst_of_error hnode herr]
    exact .inl ⟨e, rfl⟩
  have hentry := locate_in h.of_append hloc hname
  cases hget : t'.get? (place ++ [name]) with
  | none =>
    rw [entry_of_none hget] at hentry
    rw [ensureFirst_of_free hnode hok hentry]
    have hmade := hopened.make hname hget
    refine .inr ⟨_, place ++ [name], rfl, hmade, ?_⟩
    exact locate_directory_in h.of_append (locate_extends (extends_insert _ hget) hloc)
      hname hmade.directory
  | some node =>
    -- Something is there, so nothing was made above it.
    obtain rfl : t' = t := hopened.eq_of_get?_below ht (by rw [hget]; simp)
    rw [entry_of_some hget] at hentry
    rw [ensureFirst_of_occupied hnode hok hentry]
    by_cases hdir : node.isDirectory
    · obtain rfl := Node.eq_directory hdir
      exact .inr ⟨t', place ++ [name], rfl, Opened.refl ht hget,
        locate_directory_in h.of_append hloc hname hget⟩
    · rw [if_neg hdir]
      exact .inl ⟨_, rfl⟩

theorem ensureFirst_upward (ht : t.WellFormed) (hcwd : t.get? cwd = some .directory)
    (h : Cleaned rooted ns) {fuel : Nat} (hfuel : ns.length ≤ fuel) :
    Ensures t cwd (ofNames rooted ns) (t.ensureFirst cwd (upward fuel (ofNames rooted ns))) := by
  have horigin : Opened t t (origin cwd rooted) := Opened.refl ht (get?_origin hcwd rooted)
  induction ns using List.reverseRecOn generalizing fuel with
  | nil =>
    have hparent : parent? (ofNames rooted []) = none := by cases rooted <;> decide
    rw [upward_of_parent?_none fuel hparent, ensureFirst_of_node (locate_origin t cwd rooted)]
    exact .inr ⟨t, _, rfl, horigin, locate_origin t cwd rooted⟩
  | append_singleton init l ih =>
    rw [List.length_append, List.length_singleton] at hfuel
    obtain ⟨fuel, rfl⟩ := Nat.exists_eq_add_of_le' (Nat.le_of_add_left_le hfuel)
    rw [upward_concat fuel h]
    refine ensureFirst_concat ht hcwd h ?_
    by_cases hi : init = []
    · rw [if_pos hi, hi]
      exact .inr ⟨t, _, rfl, horigin, locate_origin t cwd rooted⟩
    · rw [if_neg hi]
      exact ih h.of_append (by omega)

-- Of a directory that is there nothing is made.
theorem makeDirectories_of_directory (h : t.locate cwd path true = .ok (.node place .directory)) :
    t.makeDirectories cwd path = (.ok (), t) := by
  obtain ⟨above, habove⟩ : ∃ above, upward path.length path = path :: above := by
    cases path.length with
    | zero => exact ⟨[], rfl⟩
    | succ fuel =>
      rw [upward]
      split
      · exact ⟨[], rfl⟩
      · exact ⟨_, rfl⟩
  rw [makeDirectories, habove, ensureFirst_of_node h]
  rfl

/-- Directories are made all or none. -/
theorem makeDirectories_ensures (ht : t.WellFormed) (hcwd : t.get? cwd = some .directory)
    (h : Cleaned rooted ns) :
    Ensures t cwd (ofNames rooted ns) (t.makeDirectories cwd (ofNames rooted ns)) :=
  ensureFirst_upward ht hcwd h (length_le_length_ofNames h)

end SolidityAst.FileTree
