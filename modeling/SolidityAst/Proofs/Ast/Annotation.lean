import SolidityAst.Ast.Annotate
import SolidityAst.Proofs.Assoc
import SolidityAst.Proofs.Json.Paths

/-!
Annotation, node by node.

An object gets the location that it misses, and then everything in it is annotated, what it got included.
A tree in which no object misses a location stays as it is, and an annotated tree is one; so what is
already under `loc` stays exactly when nothing inside it misses a location.
-/
namespace SolidityAst.Ast

open Source Json

@[simp] theorem annotateItems_eq_map (index : LineIndex) (vs : List Json) :
    annotateItems index vs = vs.map (annotate index) := by
  induction vs with
  | nil => rfl
  | cons v vs ih => rw [annotateItems, ih, List.map_cons]

@[simp] theorem annotateMembers_eq_map (index : LineIndex) (ms : List (String × Json)) :
    annotateMembers index ms = ms.map fun m => (m.1, annotate index m.2) := by
  induction ms with
  | nil => rfl
  | cons m ms ih => rw [annotateMembers, ih, List.map_cons]

/-! ## Missing locations -/

section

variable {index : LineIndex} {ms ns : List (String × Json)}

theorem rangeOf?_eq_some {r : Range} :
    rangeOf? ms = some r ↔ ∃ s, Assoc.find? "src" ms = some (.string s) ∧ Range.parse? s = some r := by
  unfold rangeOf?
  split
  next s hsrc =>
    rw [hsrc]
    constructor
    · intro h
      exact ⟨s, rfl, h⟩
    · rintro ⟨s', hs, h⟩
      cases hs
      exact h
  next hnone =>
    constructor
    · intro h
      cases h
    · rintro ⟨s, hsrc, -⟩
      exact absurd hsrc (hnone s)

theorem missingLocation?_eq_none :
    missingLocation? index ms = none ↔ (Assoc.find? "loc" ms).isSome ∨ rangeOf? ms = none := by
  unfold missingLocation?
  split
  next hloc => exact ⟨fun _ => .inl hloc, fun _ => rfl⟩
  next hloc => rw [Option.map_eq_none_iff, or_iff_right hloc]

theorem missingLocation?_eq_some {l : Location} :
    missingLocation? index ms = some l ↔
      Assoc.find? "loc" ms = none ∧ ∃ r, rangeOf? ms = some r ∧ index.location r.start r.stop = l := by
  unfold missingLocation?
  split
  next hloc =>
    constructor
    · intro h
      cases h
    · rintro ⟨hnone, -⟩
      rw [hnone] at hloc
      cases hloc
  next hloc =>
    rw [Option.map_eq_some_iff]
    exact (and_iff_right (by simpa using hloc)).symm

-- Where strings stay strings and nothing else becomes one, the range is the same.
theorem rangeOf?_of_map {f : Json → Json} (hstring : ∀ v s, f v = .string s ↔ v = .string s)
    (h : Assoc.find? "src" ns = (Assoc.find? "src" ms).map f) : rangeOf? ns = rangeOf? ms := by
  apply Option.ext
  intro r
  have hsrc : ∀ s, Assoc.find? "src" ns = some (.string s) ↔ Assoc.find? "src" ms = some (.string s) := by
    intro s
    rw [h, Option.map_eq_some_iff]
    constructor
    · rintro ⟨v, hv, heq⟩
      rw [hv, (hstring v s).mp heq]
    · intro hs
      exact ⟨.string s, hs, (hstring _ s).mpr rfl⟩
  rw [rangeOf?_eq_some, rangeOf?_eq_some]
  simp only [hsrc]

end

/-! ## Trees without missing locations -/

/-- No object of the tree misses a location. -/
inductive Located : Json → Prop
  | null : Located .null
  | bool (b : Bool) : Located (.bool b)
  | number (literal : String) : Located (.number literal)
  | string (s : String) : Located (.string s)
  | array {items : List Json} (h : ∀ v ∈ items, Located v) : Located (.array items)
  | object {members : List (String × Json)}
    (hself : (Assoc.find? "loc" members).isSome ∨ rangeOf? members = none)
    (h : ∀ m ∈ members, Located m.2) : Located (.object members)

theorem annotate_of_located (index : LineIndex) {v : Json} (h : Located v) : annotate index v = v := by
  induction h with
  | null => simp only [annotate]
  | bool b => simp only [annotate]
  | number literal => simp only [annotate]
  | string s => simp only [annotate]
  | array _ ih => rw [annotate, annotateItems_eq_map, List.map_congr_left ih, List.map_id']
  | @object members hself _ ih =>
    have hmembers : annotateMembers index members = members := by
      rw [annotateMembers_eq_map]
      refine (List.map_congr_left fun m hm => ?_).trans (List.map_id' members)
      rw [ih m hm]
    rw [annotate, missingLocation?_eq_none.mpr hself, hmembers]

/-- A location is written as objects without ranges, down to natural numbers. -/
theorem location_induction {P : Json → Prop} (natural : ∀ n : Nat, P (.int n))
    (object : ∀ ms : List (String × Json), (ms.map Prod.fst).Nodup → rangeOf? ms = none →
      (∀ m ∈ ms, P m.2) → P (.object ms)) (l : Location) : P l.toJson := by
  have hpair : ∀ {a b : String × Json}, P a.2 → P b.2 → ∀ m ∈ [a, b], P m.2 := by
    intro a b ha hb
    exact List.forall_mem_cons.mpr ⟨ha, List.forall_mem_singleton.mpr hb⟩
  have hposition : ∀ p : Position, P p.toJson := fun p =>
    object _ (by simp) rfl (hpair (natural p.line) (natural p.column))
  exact object _ (by simp) rfl (hpair (hposition l.start) (hposition l.finish))

theorem located_location (l : Location) : Located l.toJson :=
  location_induction (fun _ => .number _) (fun _ _ hrange h => .object (.inr hrange) h) l

/-! ## Objects -/

/-- The members of an object with the location that it misses. -/
def withLocation (index : LineIndex) (members : List (String × Json)) : List (String × Json) :=
  match missingLocation? index members with
  | some l => Assoc.insert "loc" l.toJson members
  | none => members

theorem annotate_object (index : LineIndex) (ms : List (String × Json)) :
    annotate index (.object ms) =
      .object ((withLocation index ms).map fun m => (m.1, annotate index m.2)) := by
  rw [annotate, annotateMembers_eq_map, withLocation]
  cases missingLocation? index ms with
  | none => rfl
  | some l =>
    -- The location that is put in has no ranges, so annotating it as well changes nothing.
    dsimp only
    rw [Assoc.map_insert, annotate_of_located index (located_location l)]

theorem find?_withLocation (index : LineIndex) (ms : List (String × Json)) (key : String) :
    Assoc.find? key (withLocation index ms) =
      (Assoc.find? key ms).or
        (if key = "loc" then (missingLocation? index ms).map Location.toJson else none) := by
  unfold withLocation
  split
  next l hmissing =>
    rw [Assoc.find?_insert, hmissing]
    by_cases hkey : key = "loc"
    · rw [if_pos hkey, if_pos hkey, hkey, (missingLocation?_eq_some.mp hmissing).1]
      rfl
    · rw [if_neg hkey, if_neg hkey, Option.or_none]
  next hmissing =>
    rw [hmissing, Option.map_none, ite_self, Option.or_none]

theorem withLocation_of_rangeOf? {index : LineIndex} {ms : List (String × Json)} (h : rangeOf? ms = none) :
    withLocation index ms = ms := by
  rw [withLocation, missingLocation?_eq_none.mpr (.inr h)]

theorem nodup_withLocation (index : LineIndex) {ms : List (String × Json)}
    (hkeys : (ms.map Prod.fst).Nodup) : ((withLocation index ms).map Prod.fst).Nodup := by
  unfold withLocation
  split
  next l hmissing =>
    -- The location goes under a key that no member has.
    have hfree := (missingLocation?_eq_some.mp hmissing).1
    rw [((Assoc.insert_perm l.toJson hfree).map Prod.fst).nodup_iff, List.map_cons, List.nodup_cons]
    refine ⟨fun hmem => ?_, hkeys⟩
    obtain ⟨m, hm, hkey⟩ := List.mem_map.mp hmem
    exact Assoc.find?_eq_none.mp hfree m hm hkey
  next => exact hkeys

theorem mem_withLocation {index : LineIndex} {ms : List (String × Json)} {m : String × Json}
    (h : m ∈ withLocation index ms) : (∃ l : Location, m = ("loc", l.toJson)) ∨ m ∈ ms := by
  unfold withLocation at h
  split at h
  next l _ => exact (Assoc.mem_insert h).imp_left fun heq => ⟨l, heq⟩
  next => exact .inr h

/-- The value that an annotated object has under a key. -/
theorem find?_annotated (index : LineIndex) (ms : List (String × Json)) (key : String) :
    Assoc.find? key ((withLocation index ms).map fun m => (m.1, annotate index m.2)) =
      ((Assoc.find? key ms).map (annotate index)).or
        (if key = "loc" then (missingLocation? index ms).map Location.toJson else none) := by
  have hlocation : annotate index ∘ Location.toJson = Location.toJson :=
    funext fun l => annotate_of_located index (located_location l)
  rw [Assoc.find?_map, find?_withLocation, Option.map_or]
  by_cases hkey : key = "loc"
  · rw [if_pos hkey, Option.map_map, hlocation]
  · rw [if_neg hkey, Option.map_none]

@[simp] theorem annotate_eq_string {index : LineIndex} (v : Json) (s : String) :
    annotate index v = .string s ↔ v = .string s := by
  cases v with
  | null => simp only [annotate]
  | bool b => simp only [annotate]
  | number literal => simp only [annotate]
  | string s => simp only [annotate]
  | array items => simp only [annotate, reduceCtorEq]
  | object members => simp only [annotate_object, reduceCtorEq]

theorem located_annotate (index : LineIndex) (v : Json) : Located (annotate index v) := by
  induction v using Json.induction with
  | null => simpa only [annotate] using Located.null
  | bool b => simpa only [annotate] using Located.bool b
  | number literal => simpa only [annotate] using Located.number literal
  | string s => simpa only [annotate] using Located.string s
  | array items ih =>
    rw [annotate, annotateItems_eq_map]
    exact .array (List.forall_mem_map.mpr ih)
  | object members ih =>
    rw [annotate_object]
    refine .object ?_ (List.forall_mem_map.mpr fun m hm => ?_)
    · cases hmissing : missingLocation? index members with
      | some l =>
        left
        rw [find?_annotated, hmissing, if_pos rfl, Option.map_some, Option.isSome_or, Option.isSome_some,
          Bool.or_true]
      | none =>
        -- Nothing is missing, because something is under `loc` or because there is no range.
        rcases missingLocation?_eq_none.mp hmissing with hloc | hrange
        · left
          rw [find?_annotated, Option.isSome_or, Option.isSome_map, hloc, Bool.true_or]
        · right
          rw [← hrange]
          refine rangeOf?_of_map (f := annotate index) annotate_eq_string ?_
          rw [find?_annotated, if_neg (by decide), Option.or_none]
    · rcases mem_withLocation hm with ⟨l, rfl⟩ | hm
      · rw [annotate_of_located index (located_location l)]
        exact located_location l
      · exact ih m hm

/-- Annotation leaves exactly the trees without missing locations as they are. -/
theorem annotate_eq_self_iff {index : LineIndex} {v : Json} : annotate index v = v ↔ Located v := by
  constructor
  · intro h
    rw [← h]
    exact located_annotate index v
  · exact annotate_of_located index

/-! ## Paths -/

theorem child?_annotate {index : LineIndex} {t v : Json} {step : Step} (h : t.child? step = some v) :
    (annotate index t).child? step = some (annotate index v) := by
  cases t with
  | array items =>
    cases step with
    | item place =>
      have hitem : items[place]? = some v := h
      rw [annotate, annotateItems_eq_map, child?, List.getElem?_map, hitem, Option.map_some]
    | member key => cases h
  | object members =>
    cases step with
    | item place => cases h
    | member key =>
      have hmember : Assoc.find? key members = some v := h
      rw [annotate_object, child?, find?_annotated, hmember, Option.map_some, Option.some_or]
  | null => cases h
  | bool b => cases h
  | number literal => cases h
  | string s => cases h

/-- What is at a path of a tree is there, annotated, in the annotated tree. -/
theorem get?_annotate (index : LineIndex) {t v : Json} {path : List Step} (h : t.get? path = some v) :
    (annotate index t).get? path = some (annotate index v) := by
  induction path generalizing t with
  | nil =>
    cases h
    rfl
  | cons step path ih =>
    rw [get?, Option.bind_eq_some_iff] at h
    obtain ⟨w, hw, h⟩ := h
    rw [get?, child?_annotate hw, Option.bind_some]
    exact ih h

theorem get?_location {index : LineIndex} {t : Json} {path : List Step} {ms : List (String × Json)}
    {r : Range} (hnode : t.get? path = some (.object ms)) (hloc : Assoc.find? "loc" ms = none)
    (hrange : rangeOf? ms = some r) :
    (annotate index t).get? (path ++ [.member "loc"]) = some (index.location r.start r.stop).toJson := by
  have hmissing : missingLocation? index ms = some (index.location r.start r.stop) :=
    missingLocation?_eq_some.mpr ⟨hloc, r, hrange, rfl⟩
  rw [get?_append, get?_annotate index hnode, Option.bind_some, annotate_object, get?, child?,
    find?_annotated, hloc, if_pos rfl, hmissing]
  rfl

/-! ## What is under `loc` already -/

/-- What an object has under `loc` is annotated like anything else in it; so it stays as it is exactly when
none of the objects inside it misses a location. -/
theorem existing_location_kept_iff (index : LineIndex) {t value : Json} (path : List Step)
    (h : t.get? (path ++ [.member "loc"]) = some value) :
    (annotate index t).get? (path ++ [.member "loc"]) = some (annotate index value) ∧
      ((annotate index t).get? (path ++ [.member "loc"]) = some value ↔ Located value) := by
  have hannotated := get?_annotate index h
  refine ⟨hannotated, ?_⟩
  rw [hannotated, Option.some.injEq]
  exact annotate_eq_self_iff

/-- An object that has a range under `loc`. -/
def rangeUnderLoc : Json :=
  .object [("loc", .object [("src", .string "1:1:0")]), ("src", .string "0:2:0")]

theorem existing_location_kept_iff_rangeUnderLoc :
    rangeUnderLoc.get? [.member "loc"] = some (.object [("src", .string "1:1:0")]) ∧
      (annotate (.ofSource [0x61, 0x62]) rangeUnderLoc).get? [.member "loc"] =
        some (annotate (.ofSource [0x61, 0x62]) (.object [("src", .string "1:1:0")])) ∧
      ((annotate (.ofSource [0x61, 0x62]) rangeUnderLoc).get? [.member "loc"] =
        some (.object [("src", .string "1:1:0")]) ↔ Located (.object [("src", .string "1:1:0")])) :=
  ⟨rfl, existing_location_kept_iff _ [] rfl⟩

theorem existing_location_not_kept :
    ¬ ∀ (index : LineIndex) (t value : Json) (path : List Step),
      t.get? (path ++ [.member "loc"]) = some value →
        (annotate index t).get? (path ++ [.member "loc"]) = some value := by
  intro h
  have hkept := h (.ofSource [0x61, 0x62]) rangeUnderLoc (.object [("src", .string "1:1:0")]) [] rfl
  rw [get?_annotate _ (show rangeUnderLoc.get? ([] ++ [.member "loc"]) = _ from rfl), Option.some.injEq,
    annotate_eq_self_iff] at hkept
  -- The object under `loc` has a range and nothing under a `loc` of its own.
  cases hkept with
  | object hself _ =>
    rcases hself with hloc | hrange
    · cases hloc
    · cases hrange

end SolidityAst.Ast
