import Mathlib.Data.List.Forall2
import Mathlib.Data.String.Basic
import SolidityAst.Proofs.Assoc
import SolidityAst.Proofs.Json.Tokens

/-!
JSON values as data: literals that are numbers, objects in which no key occurs twice, nesting, and values
that differ only in the order of the members of objects.

Every value that is read is well-formed.
-/
namespace SolidityAst.Json

/-! ## Well-formed values -/

/-- The literals of numbers are such, and no object has a key twice. -/
inductive WellFormed : Json → Prop
  | null : WellFormed .null
  | bool (b : Bool) : WellFormed (.bool b)
  | number {literal : String} (h : IsNumber literal.toList) : WellFormed (.number literal)
  | string (s : String) : WellFormed (.string s)
  | array {items : List Json} (h : ∀ v ∈ items, WellFormed v) : WellFormed (.array items)
  | object {members : List (String × Json)} (hkeys : (members.map Prod.fst).Nodup)
    (h : ∀ m ∈ members, WellFormed m.2) : WellFormed (.object members)

theorem wellFormed_int (n : Int) : WellFormed (.int n) := .number (isNumber_toString n)

/-! ## Cells of containers -/

/-- One cell or more with a comma between each two, up to `close`. -/
def readCells {α : Type} (cell : Read α) (close : Char) : (fuel : Nat) → Read (List α)
  | 0, _ => none
  | fuel + 1, cs =>
    match cell (skipSpace cs) with
    | none => none
    | some (v, rest) =>
      match skipSpace rest with
      | [] => none
      | c :: rest =>
        if c = ',' then (readCells cell close fuel rest).map fun (vs, rest) => (v :: vs, rest)
        else if c = close then some ([v], rest)
        else none

section Cells

variable {α : Type}

-- Items and members are read alike; only the cell and the closing bracket differ.
theorem readItems_eq_readCells (item : Read α) (fuel : Nat) :
    readItems item fuel = readCells item ']' fuel := by
  induction fuel with
  | zero => rfl
  | succ fuel ih =>
    funext cs
    rw [readItems, readCells]
    cases item (skipSpace cs) with
    | none => rfl
    | some p =>
      obtain ⟨v, rest⟩ := p
      dsimp only
      rw [ih]
      cases skipSpace rest with
      | nil => rfl
      | cons c rest =>
        by_cases hcomma : c = ','
        · rw [hcomma]
          rfl
        by_cases hclose : c = ']'
        · rw [hclose]
          rfl
        · simp [hcomma, hclose]

theorem readMembers_eq_readCells (item : Read α) (fuel : Nat) :
    readMembers item fuel = readCells (readMember item) '\x7d' fuel := by
  induction fuel with
  | zero => rfl
  | succ fuel ih =>
    funext cs
    rw [readMembers, readCells]
    cases readMember item (skipSpace cs) with
    | none => rfl
    | some p =>
      obtain ⟨m, rest⟩ := p
      dsimp only
      rw [ih]
      cases skipSpace rest with
      | nil => rfl
      | cons c rest =>
        by_cases hcomma : c = ','
        · rw [hcomma]
          rfl
        by_cases hclose : c = '\x7d'
        · rw [hclose]
          rfl
        · simp [hcomma, hclose]

theorem forall_of_readCells {P : α → Prop} {cell : Read α} {close : Char}
    (hcell : ∀ {cs v rest}, cell cs = some (v, rest) → P v) :
    ∀ {fuel cs vs rest}, readCells cell close fuel cs = some (vs, rest) → ∀ v ∈ vs, P v := by
  intro fuel
  induction fuel with
  | zero => exact fun h => nomatch h
  | succ fuel ih =>
    intro cs vs rest h
    rw [readCells] at h
    split at h
    · cases h
    · rename_i v after hv
      split at h
      · cases h
      split at h
      · obtain ⟨⟨ws, rest'⟩, hws, heq⟩ := Option.map_eq_some_iff.mp h
        cases heq
        exact List.forall_mem_cons.mpr ⟨hcell hv, ih hws⟩
      split at h
      · cases h
        exact List.forall_mem_cons.mpr ⟨hcell hv, fun _ h => nomatch h⟩
      · cases h

theorem forall_of_readArray {P : α → Prop} {item : Read α} {fuel : Nat} {cs rest : List Char}
    {vs : List α} (hitem : ∀ {cs v rest}, item cs = some (v, rest) → P v)
    (h : readArray item fuel cs = some (vs, rest)) : ∀ v ∈ vs, P v := by
  rw [readArray] at h
  split at h
  · cases h
    exact fun _ h => nomatch h
  · rw [readItems_eq_readCells] at h
    exact forall_of_readCells hitem h

theorem value_of_readMember {P : α → Prop} {item : Read α} {cs rest : List Char} {m : String × α}
    (hitem : ∀ {cs v rest}, item cs = some (v, rest) → P v)
    (h : readMember item cs = some (m, rest)) : P m.2 := by
  unfold readMember at h
  split at h
  · split at h
    · cases h
    · split at h
      · obtain ⟨⟨v, rest'⟩, hv, heq⟩ := Option.map_eq_some_iff.mp h
        cases heq
        exact hitem hv
      · cases h
  · cases h

theorem forall_of_readObject {P : α → Prop} {item : Read α} {fuel : Nat} {cs rest : List Char}
    {ms : List (String × α)} (hitem : ∀ {cs v rest}, item cs = some (v, rest) → P v)
    (h : readObject item fuel cs = some (ms, rest)) : ∀ m ∈ ms, P m.2 := by
  rw [readObject] at h
  split at h
  · cases h
    exact fun _ h => nomatch h
  · rw [readMembers_eq_readCells] at h
    exact forall_of_readCells (fun hm => value_of_readMember hitem hm) h

end Cells

/-! ## What is read -/

theorem wellFormed_of_readScalar {cs rest : List Char} {v : Json} (h : readScalar cs = some (v, rest)) :
    WellFormed v := by
  unfold readScalar at h
  split at h
  · cases h
    exact .null
  · cases h
    exact .bool true
  · cases h
    exact .bool false
  · obtain ⟨⟨s, rest'⟩, -, heq⟩ := Option.map_eq_some_iff.mp h
    cases heq
    exact .string s
  · obtain ⟨⟨literal, rest'⟩, hread, heq⟩ := Option.map_eq_some_iff.mp h
    cases heq
    exact .number (isNumber_of_readNumber hread)

/-- What is read is well-formed: of the members with one key an object keeps the last. -/
theorem wellFormed_of_readValue {fuel : Nat} :
    ∀ {depth cs v rest}, readValue fuel depth cs = some (v, rest) → WellFormed v := by
  intro depth
  induction depth with
  | zero => exact fun h => wellFormed_of_readScalar h
  | succ depth ih =>
    intro cs v rest h
    unfold readValue at h
    split at h
    · cases ‹depth + 1 = 0›
    · rename_i depth' cs' hdepth
      cases hdepth
      obtain ⟨⟨vs, rest'⟩, hvs, heq⟩ := Option.map_eq_some_iff.mp h
      cases heq
      exact .array (forall_of_readArray ih hvs)
    · rename_i depth' cs' hdepth
      cases hdepth
      obtain ⟨⟨ms, rest'⟩, hms, heq⟩ := Option.map_eq_some_iff.mp h
      cases heq
      refine .object (Assoc.Increasing.ofList ms).nodup fun m hm => ?_
      exact forall_of_readObject ih hms m (Assoc.mem_ofList hm)
    · exact wellFormed_of_readScalar h

/-! ## Nesting -/

mutual

/-- How deep the containers of a value nest. -/
def depth : Json → Nat
  | .array items => itemsDepth items + 1
  | .object members => membersDepth members + 1
  | _ => 0

/-- The depth of the deepest item. -/
def itemsDepth : List Json → Nat
  | [] => 0
  | v :: vs => max (depth v) (itemsDepth vs)

/-- The depth of the deepest member. -/
def membersDepth : List (String × Json) → Nat
  | [] => 0
  | (_, v) :: ms => max (depth v) (membersDepth ms)

end

theorem depth_le_itemsDepth {v : Json} : ∀ {vs : List Json}, v ∈ vs → depth v ≤ itemsDepth vs
  | w :: vs, h => by
    rw [itemsDepth]
    rcases List.mem_cons.mp h with rfl | h
    · omega
    · have hrest := depth_le_itemsDepth h
      omega

theorem depth_le_membersDepth {m : String × Json} :
    ∀ {ms : List (String × Json)}, m ∈ ms → depth m.2 ≤ membersDepth ms
  | (key, w) :: ms, h => by
    rw [membersDepth]
    rcases List.mem_cons.mp h with rfl | h
    · exact Nat.le_max_left _ _
    · have hrest := depth_le_membersDepth h
      omega

theorem itemsDepth_le {n : Nat} {vs : List Json} (h : ∀ v ∈ vs, depth v ≤ n) : itemsDepth vs ≤ n := by
  induction vs with
  | nil => exact Nat.zero_le n
  | cons v vs ih =>
    obtain ⟨hv, hvs⟩ := List.forall_mem_cons.mp h
    rw [itemsDepth]
    exact Nat.max_le.mpr ⟨hv, ih hvs⟩

theorem membersDepth_le {n : Nat} {ms : List (String × Json)} (h : ∀ m ∈ ms, depth m.2 ≤ n) :
    membersDepth ms ≤ n := by
  induction ms with
  | nil => exact Nat.zero_le n
  | cons m ms ih =>
    obtain ⟨hm, hms⟩ := List.forall_mem_cons.mp h
    rw [membersDepth]
    exact Nat.max_le.mpr ⟨hm, ih hms⟩

/-! ## Order of members -/

/-- Values that are equal when the members of objects are looked up by their keys. -/
inductive Same : Json → Json → Prop
  | null : Same .null .null
  | bool (b : Bool) : Same (.bool b) (.bool b)
  | number (literal : String) : Same (.number literal) (.number literal)
  | string (s : String) : Same (.string s) (.string s)
  | array {vs ws : List Json} (h : List.Forall₂ Same vs ws) : Same (.array vs) (.array ws)
  | object {ms ns : List (String × Json)}
    (h : ∀ key, Option.Rel Same (Assoc.find? key ms) (Assoc.find? key ns)) : Same (.object ms) (.object ns)

mutual

/-- The value with the members of every object in the order of their keys. -/
def sorted : Json → Json
  | .array items => .array (sortedItems items)
  | .object members => .object (Assoc.ofList (sortedMembers members))
  | v => v

/-- The items with their objects sorted. -/
def sortedItems : List Json → List Json
  | [] => []
  | v :: vs => sorted v :: sortedItems vs

/-- The members, in their order, with the objects in their values sorted. -/
def sortedMembers : List (String × Json) → List (String × Json)
  | [] => []
  | (key, v) :: ms => (key, sorted v) :: sortedMembers ms

end

@[simp] theorem sortedItems_eq_map (vs : List Json) : sortedItems vs = vs.map sorted := by
  induction vs with
  | nil => rfl
  | cons v vs ih => rw [sortedItems, ih, List.map_cons]

@[simp] theorem sortedMembers_eq_map (ms : List (String × Json)) :
    sortedMembers ms = ms.map fun m => (m.1, sorted m.2) := by
  induction ms with
  | nil => rfl
  | cons m ms ih => rw [sortedMembers, ih, List.map_cons]

theorem find?_sorted {ms : List (String × Json)} (hkeys : (ms.map Prod.fst).Nodup) (key : String) :
    Assoc.find? key (Assoc.ofList (ms.map fun m => (m.1, sorted m.2))) =
      (Assoc.find? key ms).map sorted := by
  have hkeys' : ((ms.map fun m => (m.1, sorted m.2)).map Prod.fst).Nodup := by
    rw [List.map_map]
    exact hkeys
  simp [Assoc.find?_ofList hkeys']

theorem same_sorted {v : Json} (h : WellFormed v) : Same (sorted v) v := by
  induction h with
  | null => exact .null
  | bool b => exact .bool b
  | number _ => exact .number _
  | string s => exact .string s
  | array _ ih =>
    rw [sorted, sortedItems_eq_map]
    refine .array (List.forall₂_map_left_iff.mpr ?_)
    exact List.forall₂_same.mpr ih
  | @object members hkeys _ ih =>
    rw [sorted, sortedMembers_eq_map]
    refine .object fun key => ?_
    rw [find?_sorted hkeys]
    cases hfind : Assoc.find? key members with
    | none => exact .none
    | some w => exact .some (ih _ (Assoc.mem_of_find? hfind))

end SolidityAst.Json
