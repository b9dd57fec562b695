import Mathlib.Data.List.Forall2
import SolidityAst.Proofs.Ast.Annotation
import SolidityAst.Proofs.Source.Range

/-!
Annotation extends a tree by locations and by nothing else.

At every path the annotated tree has a value of the same kind, and an object gains at most a location.
The entries of an object may be visited in place and in any order: what one visit changes no other visit
sees, and the location that was just put in has nothing to annotate.
-/
namespace SolidityAst.Ast

open Source Json

/-! ## Values at paths -/

/-- How a value may differ after annotation, apart from what happens inside the values directly in it. -/
inductive Extends (index : LineIndex) : Json → Json → Prop
  | null : Extends index .null .null
  | bool (b : Bool) : Extends index (.bool b) (.bool b)
  | number (literal : String) : Extends index (.number literal) (.number literal)
  | string (s : String) : Extends index (.string s) (.string s)
  | array {vs ws : List Json} (hlength : ws.length = vs.length) : Extends index (.array vs) (.array ws)
  | object {ms ns : List (String × Json)}
    (hkept : ∀ key, (Assoc.find? key ms).isSome → (Assoc.find? key ns).isSome)
    (hnew : ∀ key value, Assoc.find? key ms = none ∧ Assoc.find? key ns = some value ↔
      key = "loc" ∧ Assoc.find? "loc" ms = none ∧
        ∃ s r, Assoc.find? "src" ms = some (.string s) ∧ Range.parse? s = some r ∧
          value = (index.location r.start (Int64.ofNat r.start + Int64.ofNat r.length).toInt).toJson) :
    Extends index (.object ms) (.object ns)

-- A location is missing in the words of the rule above.
theorem map_missingLocation?_eq_some {index : LineIndex} {ms : List (String × Json)} {value : Json} :
    (missingLocation? index ms).map Location.toJson = some value ↔
      Assoc.find? "loc" ms = none ∧
        ∃ s r, Assoc.find? "src" ms = some (.string s) ∧ Range.parse? s = some r ∧
          value = (index.location r.start (Int64.ofNat r.start + Int64.ofNat r.length).toInt).toJson := by
  rw [Option.map_eq_some_iff]
  constructor
  · rintro ⟨l, hl, rfl⟩
    obtain ⟨hloc, r, hr, rfl⟩ := missingLocation?_eq_some.mp hl
    obtain ⟨s, hsrc, hs⟩ := rangeOf?_eq_some.mp hr
    exact ⟨hloc, s, r, hsrc, hs, by rw [Range.stop_eq_toInt]⟩
  · rintro ⟨hloc, s, r, hsrc, hs, rfl⟩
    refine ⟨index.location r.start r.stop, ?_, by rw [Range.stop_eq_toInt]⟩
    exact missingLocation?_eq_some.mpr ⟨hloc, r, rangeOf?_eq_some.mpr ⟨s, hsrc, hs⟩, rfl⟩

theorem extends_annotate (index : LineIndex) (v : Json) : Extends index v (annotate index v) := by
  cases v with
  | null => simpa only [annotate] using Extends.null
  | bool b => simpa only [annotate] using Extends.bool b
  | number literal => simpa only [annotate] using Extends.number literal
  | string s => simpa only [annotate] using Extends.string s
  | array items =>
    rw [annotate, annotateItems_eq_map]
    exact .array (List.length_map _)
  | object members =>
    rw [annotate_object]
    refine .object (fun key hkey => ?_) fun key value => ?_
    · rw [find?_annotated, Option.isSome_or, Option.isSome_map, hkey, Bool.true_or]
    · rw [find?_annotated]
      by_cases hkey : key = "loc"
      · subst hkey
        rw [if_pos rfl, and_iff_right rfl, ← map_missingLocation?_eq_some]
        constructor
        · rintro ⟨hnone, hvalue⟩
          rw [hnone] at hvalue
          exact hvalue
        · intro hvalue
          have hnone := (map_missingLocation?_eq_some.mp hvalue).1
          rw [hnone]
          exact ⟨rfl, hvalue⟩
      · rw [if_neg hkey, Option.or_none]
        constructor
        · rintro ⟨hnone, hvalue⟩
          rw [hnone] at hvalue
          cases hvalue
        · rintro ⟨hloc, -⟩
          exact absurd hloc hkey

/-! ## Visits in any order -/

/-- Visits the entries at the given places, one after the other, and puts what each visit gives in the
place of what it found. -/
inductive VisitsAt (visit : Json → Json → Prop) :
    List Nat → List (String × Json) → List (String × Json) → Prop
  | done (ms : List (String × Json)) : VisitsAt visit [] ms ms
  | next {place : Nat} {places : List Nat} {ms ns : List (String × Json)} {key : String} {v w : Json}
    (hentry : ms[place]? = some (key, v)) (hvisit : visit v w)
    (hrest : VisitsAt visit places (ms.set place (key, w)) ns) : VisitsAt visit (place :: places) ms ns

/-- Annotation in place.  An object gets its missing location first; then its entries, this one too, are
visited once each, in an order that is left open. -/
inductive Visits (index : LineIndex) : Json → Json → Prop
  | null : Visits index .null .null
  | bool (b : Bool) : Visits index (.bool b) (.bool b)
  | number (literal : String) : Visits index (.number literal) (.number literal)
  | string (s : String) : Visits index (.string s) (.string s)
  | array {vs ws : List Json} (h : List.Forall₂ (Visits index) vs ws) :
      Visits index (.array vs) (.array ws)
  | object {ms ns : List (String × Json)} {order : List Nat}
    (horder : order.Perm (List.range (withLocation index ms).length))
    (h : VisitsAt (Visits index) order (withLocation index ms) ns) : Visits index (.object ms) (.object ns)

section

variable {visit : Json → Json → Prop} {f : Json → Json} {order : List Nat} {ms ns : List (String × Json)}

-- The places that are still to be visited hold what they held at the start, as no place comes twice.
theorem VisitsAt.getElem?_eq (h : VisitsAt visit order ms ns) (hnodup : order.Nodup)
    (hf : ∀ place ∈ order, ∀ key v w, ms[place]? = some (key, v) → visit v w → w = f v) (place : Nat) :
    ns[place]? =
      if place ∈ order then ms[place]?.map fun m => (m.1, f m.2) else ms[place]? := by
  induction h with
  | done ms => rw [if_neg List.not_mem_nil]
  | @next first places ms ns key v w hentry hvisit _ ih =>
    rw [List.nodup_cons] at hnodup
    have hw : w = f v := hf first List.mem_cons_self key v w hentry hvisit
    have hlater : ∀ later ∈ places, (ms.set first (key, w))[later]? = ms[later]? := by
      intro later hlater
      have hne : first ≠ later := fun heq => hnodup.1 (heq ▸ hlater)
      exact List.getElem?_set_ne hne
    have hrest := ih hnodup.2 fun later hmem key' v' w' hentry' =>
      hf later (List.mem_cons_of_mem _ hmem) key' v' w' ((hlater later hmem).symm.trans hentry')
    rw [hrest]
    by_cases hplace : place ∈ places
    · rw [if_pos hplace, if_pos (List.mem_cons_of_mem _ hplace), hlater place hplace]
    · rw [if_neg hplace]
      by_cases hfirst : place = first
      · subst hfirst
        obtain ⟨hlt, -⟩ := List.getElem?_eq_some_iff.mp hentry
        rw [if_pos List.mem_cons_self, hentry, List.getElem?_set_self hlt, hw]
        rfl
      · rw [if_neg fun hmem => (List.mem_cons.mp hmem).elim hfirst hplace,
          List.getElem?_set_ne (Ne.symm hfirst)]

theorem exists_visitsAt (hnodup : order.Nodup)
    (hf : ∀ place ∈ order, ∃ key v w, ms[place]? = some (key, v) ∧ visit v w) :
    ∃ ns, VisitsAt visit order ms ns := by
  induction order generalizing ms with
  | nil => exact ⟨ms, .done ms⟩
  | cons place places ih =>
    rw [List.nodup_cons] at hnodup
    obtain ⟨key, v, w, hentry, hvisit⟩ := hf place List.mem_cons_self
    have hrest : ∀ later ∈ places,
        ∃ key' v' w', (ms.set place (key, w))[later]? = some (key', v') ∧ visit v' w' := by
      intro later hlater
      have hne : place ≠ later := fun heq => hnodup.1 (heq ▸ hlater)
      rw [List.getElem?_set_ne hne]
      exact hf later (List.mem_cons_of_mem _ hlater)
    obtain ⟨ns, hns⟩ := ih hnodup.2 hrest
    exact ⟨ns, .next hentry hvisit hns⟩

/-- Visiting every entry once maps the entries, whatever the order. -/
theorem visitsAt_iff_map (horder : order.Perm (List.range ms.length))
    (hf : ∀ m ∈ ms, ∀ w, visit m.2 w ↔ w = f m.2) :
    VisitsAt visit order ms ns ↔ ns = ms.map fun m => (m.1, f m.2) := by
  have hnodup : order.Nodup := horder.nodup_iff.mpr List.nodup_range
  have hentry : ∀ place key v w, ms[place]? = some (key, v) → (visit v w ↔ w = f v) :=
    fun place key v w h => hf (key, v) (List.mem_of_getElem? h) w
  have hmap : ∀ {ns}, VisitsAt visit order ms ns → ns = ms.map fun m => (m.1, f m.2) := by
    intro ns h
    apply List.ext_getElem?
    intro place
    rw [h.getElem?_eq hnodup fun place _ key v w hplace => (hentry place key v w hplace).mp,
      List.getElem?_map]
    split
    next => rfl
    next hplace =>
      rw [horder.mem_iff, List.mem_range, Nat.not_lt] at hplace
      rw [List.getElem?_eq_none hplace]
      rfl
  constructor
  · exact hmap
  · rintro rfl
    have hvisits : ∀ place ∈ order, ∃ key v w, ms[place]? = some (key, v) ∧ visit v w := by
      intro place hplace
      have hsome := List.getElem?_eq_getElem (List.mem_range.mp (horder.mem_iff.mp hplace))
      exact ⟨_, _, _, hsome, (hentry place _ _ _ hsome).mpr rfl⟩
    obtain ⟨ns, hns⟩ := exists_visitsAt hnodup hvisits
    rw [← hmap hns]
    exact hns

end

theorem visits_object_iff {index : LineIndex} {ms : List (String × Json)} {r : Json}
    (h : ∀ m ∈ withLocation index ms, ∀ w, Visits index m.2 w ↔ w = annotate index m.2) :
    Visits index (.object ms) r ↔ r = annotate index (.object ms) := by
  rw [annotate_object]
  constructor
  · intro hvisits
    cases hvisits with
    | object horder hvisits => rw [(visitsAt_iff_map horder h).mp hvisits]
  · rintro rfl
    exact .object (.refl _) ((visitsAt_iff_map (.refl _) h).mpr rfl)

theorem visits_scalar_iff {index : LineIndex} {v r : Json} (hlocated : Located v)
    (hself : Visits index v v) (honly : ∀ w, Visits index v w → w = v) :
    Visits index v r ↔ r = annotate index v := by
  rw [annotate_of_located index hlocated]
  constructor
  · exact honly r
  · rintro rfl
    exact hself

theorem visits_array_iff {index : LineIndex} {vs : List Json} {r : Json}
    (h : ∀ v ∈ vs, ∀ w, Visits index v w ↔ w = annotate index v) :
    Visits index (.array vs) r ↔ r = annotate index (.array vs) := by
  have hitems : ∀ ws, List.Forall₂ (Visits index) vs ws ↔ ws = vs.map (annotate index) := by
    induction vs with
    | nil => exact fun ws => List.forall₂_nil_left_iff
    | cons v vs ih =>
      rw [List.forall_mem_cons] at h
      intro ws
      rw [List.forall₂_cons_left_iff, List.map_cons]
      simp only [h.1, ih h.2]
      constructor
      · rintro ⟨w, ws', rfl, rfl, rfl⟩
        rfl
      · rintro rfl
        exact ⟨_, _, rfl, rfl, rfl⟩
  rw [annotate, annotateItems_eq_map]
  constructor
  · intro hvisits
    cases hvisits with
    | array hvisits => rw [(hitems _).mp hvisits]
  · rintro rfl
    exact .array ((hitems _).mpr rfl)

theorem visits_number_iff {index : LineIndex} (literal : String) (r : Json) :
    Visits index (.number literal) r ↔ r = annotate index (.number literal) :=
  visits_scalar_iff (.number literal) (.number literal) fun w h => by cases h; rfl

-- The location that an object gets is visited like the rest of it.
theorem visits_location_iff {index : LineIndex} (l : Location) :
    ∀ r, Visits index l.toJson r ↔ r = annotate index l.toJson := by
  refine location_induction (P := fun v => ∀ r, Visits index v r ↔ r = annotate index v)
    (fun n => visits_number_iff _) (fun ms _ hrange h r => visits_object_iff ?_) l
  rw [withLocation_of_rangeOf? hrange]
  exact h

/-- Whatever order the entries are visited in, the tree that comes out is the annotated one. -/
theorem visits_iff {index : LineIndex} (t r : Json) : Visits index t r ↔ r = annotate index t := by
  induction t using Json.induction generalizing r with
  | null => exact visits_scalar_iff .null .null fun w h => by cases h; rfl
  | bool b => exact visits_scalar_iff (.bool b) (.bool b) fun w h => by cases h; rfl
  | number literal => exact visits_number_iff literal r
  | string s => exact visits_scalar_iff (.string s) (.string s) fun w h => by cases h; rfl
  | array items ih => exact visits_array_iff ih
  | object members ih =>
    refine visits_object_iff fun m hm w => ?_
    rcases mem_withLocation hm with ⟨l, rfl⟩ | hm
    · exact visits_location_iff l w
    · exact ih m hm w

/-- An annotated tree has, at every path of the tree, a value of the same kind, with every item and every key
that was there.  Its only new entries are locations: an object without `loc` whose `src` is the text of a range
gets the location of the range, and no other object gets anything.  Every order of visiting the entries of
objects leads to this tree. -/
theorem annotate_extends (index : LineIndex) (t : Json) :
    (∀ path v, t.get? path = some v →
        ∃ w, (annotate index t).get? path = some w ∧ Extends index v w) ∧
      ∀ r, Visits index t r ↔ r = annotate index t := by
  refine ⟨fun path v hpath => ?_, visits_iff t⟩
  exact ⟨annotate index v, get?_annotate index hpath, extends_annotate index v⟩

/-- A tree whose one range is in an item of a member. -/
def nestedRange : Json := .object [("nodes", .array [.null, .object [("src", .string "0:1:0")]])]

theorem annotate_extends_nestedRange :
    nestedRange.get? [.member "nodes", .item 1] = some (.object [("src", .string "0:1:0")]) ∧
      ∃ w, (annotate (.ofSource [0x61]) nestedRange).get? [.member "nodes", .item 1] = some w ∧
        Extends (.ofSource [0x61]) (.object [("src", .string "0:1:0")]) w :=
  ⟨rfl, (annotate_extends (.ofSource [0x61]) nestedRange).1 [.member "nodes", .item 1] _ rfl⟩

end SolidityAst.Ast
