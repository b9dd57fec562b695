import Mathlib.Data.List.Basic
import SolidityAst.Proofs.Json.Layout
import SolidityAst.Text.Fields

/-!
The texts of JSON values, said by the grammar and not by a reader.

A text of the grammar is read, or refused for its nesting, without a look at what comes behind it.  Behind a number
this takes a character that does not go on with it; behind a closing bracket anything may come.
-/
namespace SolidityAst.Json

open Text

/-! ## The grammar -/

/-- A hexadecimal digit. -/
def IsHex (c : Char) : Prop := isDigit c = true ∨ ('a' ≤ c ∧ c ≤ 'f') ∨ ('A' ≤ c ∧ c ≤ 'F')

/-- What may stand between the quotes of a string. -/
inductive IsContent : List Char → Prop
  | nil : IsContent []
  | plain {c : Char} {cs : List Char} (hquote : c ≠ '"') (hslash : c ≠ '\\') (hlow : 0x20 ≤ c.toNat)
    (h : IsContent cs) : IsContent (c :: cs)
  | short {c : Char} {cs : List Char} (hc : c ∈ ['"', '\\', '/', 'b', 'f', 'n', 'r', 't'])
    (h : IsContent cs) : IsContent ('\\' :: c :: cs)
  | code {a b c d : Char} {cs : List Char} (ha : IsHex a) (hb : IsHex b) (hc : IsHex c) (hd : IsHex d)
    (h : IsContent cs) : IsContent ('\\' :: 'u' :: a :: b :: c :: d :: cs)

/-- The string that stands between quotes. -/
def contentString (cs : List Char) : String := ((readString (cs ++ ['"'])).map Prod.fst).getD ""

/-- Something between blanks. -/
structure Cell (α : Type) where
  before : List Char
  item : α
  after : List Char
  blank_before : Blank before
  blank_after : Blank after

/-- The text of a cell. -/
def Cell.chars {α : Type} (text : α → List Char) (c : Cell α) : List Char := c.before ++ (text c.item ++ c.after)

/-- A member of an object: what stands between the quotes of its key, and the text of its value. -/
structure Member where
  key : List Char
  gap : List Char
  lead : List Char
  value : List Char
  content_key : IsContent key
  blank_gap : Blank gap
  blank_lead : Blank lead

/-- The text of a member. -/
def Member.text (m : Member) : List Char := '"' :: (m.key ++ '"' :: (m.gap ++ ':' :: (m.lead ++ m.value)))

/-- The key of a member as a string, and the text of its value as it stands. -/
def Member.entry (m : Member) : String × List Char := (contentString m.key, m.value)

/-- Cells with a comma between each two, in brackets. -/
def bracketed {α : Type} (start close : Char) (text : α → List Char) (blank : List Char) (cells : List (Cell α)) :
    List Char :=
  start :: (blank ++ (joinWith ',' (cells.map (Cell.chars text)) ++ [close]))

/-- The texts of values. -/
inductive IsValue : List Char → Prop
  | null : IsValue ['n', 'u', 'l', 'l']
  | bool (b : Bool) : IsValue (if b then ['t', 'r', 'u', 'e'] else ['f', 'a', 'l', 's', 'e'])
  | number {ds : List Char} (h : IsNumber ds) : IsValue ds
  | string {cs : List Char} (h : IsContent cs) : IsValue ('"' :: (cs ++ ['"']))
  | array {blank : List Char} {cells : List (Cell (List Char))} (hblank : Blank blank)
    (h : ∀ c ∈ cells, IsValue c.item) : IsValue (bracketed '[' ']' id blank cells)
  | object {blank : List Char} {cells : List (Cell Member)} (hblank : Blank blank)
    (h : ∀ c ∈ cells, IsValue c.item.value) : IsValue (bracketed '\x7b' '\x7d' Member.text blank cells)

/-- The texts of objects with the given members, in their order. -/
def IsObject (members : List (String × List Char)) (cs : List Char) : Prop :=
  ∃ blank, ∃ cells : List (Cell Member), Blank blank ∧ (∀ c ∈ cells, IsValue c.item.value) ∧
    cs = bracketed '\x7b' '\x7d' Member.text blank cells ∧ members = cells.map (·.item.entry)

/-! ## Strings -/

theorem exists_digit {c : Char} (h : IsHex c) : ∃ n, hex4?.digit c = some n := by
  unfold hex4?.digit
  rcases h with h | ⟨hlow, hhigh⟩ | ⟨hlow, hhigh⟩
  · exact ⟨_, by rw [if_pos h]⟩
  · by_cases hdigit : isDigit c = true
    · exact ⟨_, by rw [if_pos hdigit]⟩
    · exact ⟨_, by rw [if_neg hdigit, if_pos (by simp [hlow, hhigh])]⟩
  · split
    · exact ⟨_, rfl⟩
    · split
      · exact ⟨_, rfl⟩
      · exact ⟨_, by rw [if_pos (by simp [hlow, hhigh])]⟩

theorem exists_hex4? {a b c d : Char} (ha : IsHex a) (hb : IsHex b) (hc : IsHex c) (hd : IsHex d) :
    ∃ n, hex4? a b c d = some n := by
  obtain ⟨_, ha⟩ := exists_digit ha
  obtain ⟨_, hb⟩ := exists_digit hb
  obtain ⟨_, hc⟩ := exists_digit hc
  obtain ⟨_, hd⟩ := exists_digit hd
  exact ⟨_, by rw [hex4?, ha, hb, hc, hd]; rfl⟩

theorem exists_shortEscape? {c : Char} (h : c ∈ ['"', '\\', '/', 'b', 'f', 'n', 'r', 't']) :
    c ≠ 'u' ∧ ∃ d, shortEscape? c = some d := by
  simp only [List.mem_cons, List.not_mem_nil, or_false] at h
  rcases h with rfl | rfl | rfl | rfl | rfl | rfl | rfl | rfl
  all_goals exact ⟨by decide, _, rfl⟩

-- The quote that ends a string is the first that stands behind no backslash.
theorem IsContent.exists_pieces {cs : List Char} (h : IsContent cs) :
    ∃ ps, ∀ k, readPieces (cs ++ '"' :: k) = some (ps, k) := by
  induction h with
  | nil => exact ⟨[], fun k => rfl⟩
  | @plain c _ hquote hslash hlow _ ih =>
    obtain ⟨ps, hps⟩ := ih
    refine ⟨.char c :: ps, fun k => ?_⟩
    rw [List.cons_append, readPieces_plain hquote hslash (by omega), hps, Option.map_some]
  | short hc _ ih =>
    obtain ⟨ps, hps⟩ := ih
    obtain ⟨hu, d, hd⟩ := exists_shortEscape? hc
    refine ⟨.char d :: ps, fun k => ?_⟩
    rw [List.cons_append, List.cons_append, readPieces_short hd hu, hps, Option.map_some]
  | code ha hb hc hd _ ih =>
    obtain ⟨ps, hps⟩ := ih
    obtain ⟨n, hn⟩ := exists_hex4? ha hb hc hd
    refine ⟨.unit n :: ps, fun k => ?_⟩
    simp only [List.cons_append]
    rw [readPieces, hn]
    dsimp only
    rw [hps, Option.map_some]

theorem IsContent.readString_append {cs : List Char} (h : IsContent cs) (k : List Char) :
    readString (cs ++ '"' :: k) = some (contentString cs, k) := by
  obtain ⟨ps, hps⟩ := h.exists_pieces
  have hread : ∀ k, readString (cs ++ '"' :: k) = some (String.ofList (joinPieces ps), k) := by
    intro k
    rw [readString, hps, Option.map_some]
  rw [contentString, hread, hread]
  rfl

/-! ## Reading a text whatever follows -/

/-- What reading a text gives when nothing follows it. -/
def alone {α : Type} (read : Nat → Read α) (cs : List Char) : Option α := (read cs.length cs).map Prod.fst

/-- A text does not start with a blank or a closing bracket. -/
def StartsItem (cs : List Char) : Prop :=
  ∃ c rest, cs = c :: rest ∧ isSpace c = false ∧ c ≠ ']' ∧ c ≠ '\x7d'

/-- A text that can stand in a cell and is read without a look at what follows it. -/
structure Apart {α : Type} (read : Nat → Read α) (cs : List Char) : Prop where
  starts : StartsItem cs
  append : ∀ {fuel k}, Stops k → cs.length ≤ fuel → read fuel (cs ++ k) = (alone read cs).map (·, k)

theorem alone_eq {α : Type} {read : Nat → Read α} {cs : List Char} {o : Option α}
    (h : ∀ {fuel k}, Stops k → cs.length ≤ fuel → read fuel (cs ++ k) = o.map (·, k)) : alone read cs = o := by
  have hread := h stops_nil (Nat.le_refl _)
  rw [List.append_nil] at hread
  rw [alone, hread, Option.map_map]
  exact Option.map_id_apply

section Cells

variable {α β : Type} {text : α → List Char} {read : Nat → Read β} {close : Char}

theorem Apart.length_pos {cs : List Char} (h : Apart read cs) : 0 < cs.length := by
  obtain ⟨c, rest, rfl, -⟩ := h.starts
  exact Nat.succ_pos _

theorem Apart.skipSpace_append {cs b : List Char} (h : Apart read cs) (hb : Blank b) (k : List Char) :
    skipSpace (b ++ (cs ++ k)) = cs ++ k := by
  obtain ⟨c, rest, rfl, hspace, -⟩ := h.starts
  rw [Json.skipSpace_append hb, List.cons_append, skipSpace_cons hspace]

theorem readCells_congr {cell : Read β} {fuel : Nat} {cs ds : List Char} (h : skipSpace cs = skipSpace ds) :
    readCells cell close fuel cs = readCells cell close fuel ds := by
  cases fuel with
  | zero => rfl
  | succ fuel => rw [readCells, readCells, h]

-- One cell and the character behind it.
theorem readCells_cell {c : Cell α} (h : Apart read (text c.item)) {size fuel : Nat}
    (hsize : (text c.item).length ≤ size) {b : List Char} (hb : Blank b) {d : Char} (hd : isSpace d = false)
    {k : List Char} (hk : Stops (d :: k)) :
    readCells (read size) close (fuel + 1) (b ++ (c.chars text ++ d :: k)) =
      (alone read (text c.item)).bind fun x =>
        if d = ',' then (readCells (read size) close fuel k).map fun (xs, rest) => (x :: xs, rest)
        else if d = close then some ([x], k)
        else none := by
  have hblank : Blank (b ++ c.before) := List.forall_mem_append.mpr ⟨hb, c.blank_before⟩
  have htext : b ++ (c.chars text ++ d :: k) = b ++ c.before ++ (text c.item ++ (c.after ++ d :: k)) := by
    simp only [Cell.chars, List.append_assoc]
  rw [htext, readCells, h.skipSpace_append hblank, h.append (stops_append c.blank_after hk) hsize]
  cases alone read (text c.item) with
  | none => rfl
  | some x =>
    dsimp only [Option.map_some, Option.bind_some]
    rw [Json.skipSpace_append c.blank_after, skipSpace_cons hd]

-- The induction is on the cells: behind each comes a comma, behind the last one the closing bracket.
theorem readCells_cells (hclose : isSpace close = false ∧ close ≠ ',') {k : List Char} (hk : Stops (close :: k))
    {size : Nat} : ∀ {cells : List (Cell α)} {fuel : Nat} {b : List Char}, cells ≠ [] → cells.length ≤ fuel →
      Blank b → (∀ c ∈ cells, Apart read (text c.item)) → (∀ c ∈ cells, (text c.item).length ≤ size) →
      readCells (read size) close fuel (b ++ (joinWith ',' (cells.map (Cell.chars text)) ++ close :: k)) =
        (cells.mapM fun c => alone read (text c.item)).map (·, k) := by
  intro cells
  induction cells with
  | nil => exact fun hne => absurd rfl hne
  | cons c cells ih =>
    intro fuel b _ hfuel hb hapart hsize
    obtain ⟨fuel, rfl⟩ := Nat.exists_eq_add_one_of_ne_zero (show fuel ≠ 0 by
      rw [List.length_cons] at hfuel
      omega)
    obtain ⟨hc, hrest⟩ := List.forall_mem_cons.mp hapart
    obtain ⟨hcsize, hrestSize⟩ := List.forall_mem_cons.mp hsize
    rw [List.mapM_cons]
    cases cells with
    | nil =>
      rw [List.map_cons, List.map_nil, joinWith, readCells_cell hc hcsize hb hclose.1 hk]
      cases alone read (text c.item) with
      | none => rfl
      | some x =>
        rw [Option.bind_some, if_neg hclose.2, if_pos rfl]
        rfl
    | cons d cells =>
      have hcomma : Stops (',' :: (joinWith ',' ((d :: cells).map (Cell.chars text)) ++ close :: k)) :=
        stops_cons (by decide) _
      have hfuel' : (d :: cells).length ≤ fuel := by
        rw [List.length_cons] at hfuel
        omega
      have hstep := ih (List.cons_ne_nil d cells) hfuel' blank_nil hrest hrestSize
      rw [List.nil_append] at hstep
      rw [List.map_cons, List.map_cons, joinWith, List.append_assoc, List.cons_append, ← List.map_cons,
        readCells_cell hc hcsize hb (by decide) hcomma]
      cases alone read (text c.item) with
      | none => rfl
      | some x =>
        rw [Option.bind_some, if_pos rfl, hstep]
        cases List.mapM (fun c => alone read (text c.item)) (d :: cells) with
        | none => rfl
        | some xs => rfl

theorem length_cells {cells : List (Cell α)} (h : ∀ c ∈ cells, 0 < (text c.item).length) :
    cells.length ≤ (joinWith ',' (cells.map (Cell.chars text))).length ∧
      ∀ c ∈ cells, (text c.item).length ≤ (joinWith ',' (cells.map (Cell.chars text))).length := by
  induction cells with
  | nil => exact ⟨Nat.le_refl _, fun _ hc => nomatch hc⟩
  | cons c cells ih =>
    obtain ⟨hc, hrest⟩ := List.forall_mem_cons.mp h
    have hlength : (text c.item).length ≤ (c.chars text).length := by
      rw [Cell.chars, List.length_append, List.length_append]
      omega
    cases cells with
    | nil =>
      rw [List.map_cons, List.map_nil, joinWith, List.length_singleton]
      refine ⟨by omega, fun c' hc' => ?_⟩
      rw [List.mem_singleton.mp hc']
      exact hlength
    | cons d cells =>
      obtain ⟨hcount, hcells⟩ := ih hrest
      rw [List.map_cons, List.map_cons, joinWith, ← List.map_cons, List.length_append, List.length_cons,
        List.length_cons (a := ',')]
      refine ⟨by omega, List.forall_mem_cons.mpr ⟨by omega, fun c' hc' => ?_⟩⟩
      have := hcells c' hc'
      omega

-- Behind the opening bracket comes the closing one, or the first cell, which does not start like one.
theorem bracketed_cases {start : Char} {blank : List Char} {cells : List (Cell α)} (hblank : Blank blank)
    (h : ∀ c ∈ cells, Apart read (text c.item)) (hclose : close = ']' ∨ close = '\x7d') {fuel : Nat}
    (hfuel : (bracketed start close text blank cells).length ≤ fuel + 1) {k rest : List Char}
    (hrest : bracketed start close text blank cells ++ k = start :: rest) :
    ∃ c cs, skipSpace rest = c :: cs ∧
      ((cells = [] ∧ c = close ∧ cs = k) ∨
        (c ≠ ']' ∧ c ≠ '\x7d' ∧ readCells (read fuel) close fuel (c :: cs) =
          (cells.mapM fun c => alone read (text c.item)).map (·, k))) := by
  have hclose' : isSpace close = false ∧ close ≠ ',' := by rcases hclose with rfl | rfl <;> decide
  have hk : Stops (close :: k) := by rcases hclose with rfl | rfl <;> exact stops_cons (by decide) k
  obtain rfl : blank ++ (joinWith ',' (cells.map (Cell.chars text)) ++ close :: k) = rest := by
    simpa [bracketed] using hrest
  cases cells with
  | nil =>
    refine ⟨close, k, ?_, .inl ⟨rfl, rfl, rfl⟩⟩
    rw [skipSpace_append hblank]
    exact skipSpace_cons hclose'.1 k
  | cons c cells =>
    have hpos : ∀ c' ∈ c :: cells, 0 < (text c'.item).length := fun c' hc' => (h c' hc').length_pos
    obtain ⟨hcount, hcells⟩ := length_cells hpos
    have hlength : (joinWith ',' ((c :: cells).map (Cell.chars text))).length ≤ fuel := by
      rw [bracketed, List.length_cons, List.length_append, List.length_append] at hfuel
      omega
    have hread := readCells_cells hclose' hk (List.cons_ne_nil c cells) (Nat.le_trans hcount hlength) hblank h
      fun c' hc' => Nat.le_trans (hcells c' hc') hlength
    -- The text behind the blanks is that of the first cell.
    obtain ⟨after, hafter⟩ : ∃ after, joinWith ',' ((c :: cells).map (Cell.chars text)) ++ close :: k =
        c.before ++ (text c.item ++ after) := by
      cases cells with
      | nil => exact ⟨c.after ++ close :: k, by simp [joinWith, Cell.chars]⟩
      | cons d cells =>
        exact ⟨c.after ++ (',' :: joinWith ',' ((d :: cells).map (Cell.chars text)) ++ close :: k), by
          simp [joinWith, Cell.chars]⟩
    have hfirst := h c List.mem_cons_self
    have hskip : skipSpace (blank ++ (joinWith ',' ((c :: cells).map (Cell.chars text)) ++ close :: k)) =
        text c.item ++ after := by
      rw [hafter, ← List.append_assoc]
      exact hfirst.skipSpace_append (List.forall_mem_append.mpr ⟨hblank, c.blank_before⟩) after
    obtain ⟨e, cs, hcs, hspace, hbracket, hbrace⟩ := hfirst.starts
    rw [hcs, List.cons_append] at hskip
    refine ⟨e, cs ++ after, hskip, .inr ⟨hbracket, hbrace, ?_⟩⟩
    rw [← hread]
    apply readCells_congr
    rw [hskip, skipSpace_cons hspace]

end Cells

/-! ## Values -/

theorem IsValue.starts {cs : List Char} (h : IsValue cs) : StartsItem cs := by
  cases h with
  | number h =>
    obtain ⟨c, rest, rfl, -⟩ := h.head
    have hc := h.chars c List.mem_cons_self
    exact ⟨c, rest, rfl, isSpace_of_isNumberChar hc, ne_of_isNumberChar hc (by decide),
      ne_of_isNumberChar hc (by decide)⟩
  | bool b => cases b <;> exact ⟨_, _, rfl, by decide⟩
  | _ => exact ⟨_, _, rfl, by decide⟩

theorem Apart.of_outcome {α : Type} {read : Nat → Read α} {cs : List Char} {o : Option α} (hstarts : StartsItem cs)
    (h : ∀ {fuel k}, Stops k → cs.length ≤ fuel → read fuel (cs ++ k) = o.map (·, k)) : Apart read cs where
  starts := hstarts
  append := by
    rw [alone_eq h]
    exact h

theorem readArray_bracketed {α : Type} {read : Nat → Read α} {blank : List Char} {cells : List (Cell (List Char))}
    (hblank : Blank blank) (h : ∀ c ∈ cells, Apart read c.item) {fuel : Nat}
    (hfuel : (bracketed '[' ']' id blank cells).length ≤ fuel + 1) {k rest : List Char}
    (hrest : bracketed '[' ']' id blank cells ++ k = '[' :: rest) :
    readArray (read fuel) fuel rest = (cells.mapM fun c => alone read c.item).map (·, k) := by
  have hitems : ∀ c ∈ cells, Apart read (id c.item) := h
  obtain ⟨c, cs, hskip, ⟨rfl, rfl, rfl⟩ | ⟨hbracket, -, hcells⟩⟩ :=
    bracketed_cases hblank hitems (.inl rfl) hfuel hrest
  · rw [readArray, hskip]
    rfl
  · exact (readArray_of_starts hskip hbracket).trans hcells

theorem apart_member {α : Type} {read : Nat → Read α} {m : Member} (h : Apart read m.value) :
    Apart (fun fuel => readMember (read fuel)) m.text ∧
      alone (fun fuel => readMember (read fuel)) m.text = (alone read m.value).map fun v => (contentString m.key, v) := by
  have hread : ∀ {fuel k}, Stops k → m.text.length ≤ fuel → readMember (read fuel) (m.text ++ k) =
      ((alone read m.value).map fun v => (contentString m.key, v)).map (·, k) := by
    intro fuel k hk hfuel
    have htext : m.text ++ k = '"' :: (m.key ++ '"' :: (m.gap ++ ':' :: (m.lead ++ (m.value ++ k)))) := by
      simp [Member.text]
    have hlength : m.value.length ≤ fuel := by
      simp only [Member.text, List.length_cons, List.length_append] at hfuel
      omega
    rw [htext, readMember, m.content_key.readString_append]
    dsimp only
    rw [skipSpace_append m.blank_gap, skipSpace_cons (by decide)]
    show (read fuel (skipSpace (m.lead ++ (m.value ++ k)))).map _ = _
    rw [h.skipSpace_append m.blank_lead, h.append hk hlength, Option.map_map, Option.map_map]
    rfl
  exact ⟨.of_outcome ⟨'"', _, rfl, by decide⟩ hread, alone_eq hread⟩

theorem readObject_bracketed {α : Type} {read : Nat → Read α} {blank : List Char} {cells : List (Cell Member)}
    (hblank : Blank blank) (h : ∀ c ∈ cells, Apart read c.item.value) {fuel : Nat}
    (hfuel : (bracketed '\x7b' '\x7d' Member.text blank cells).length ≤ fuel + 1) {k rest : List Char}
    (hrest : bracketed '\x7b' '\x7d' Member.text blank cells ++ k = '\x7b' :: rest) :
    readObject (read fuel) fuel rest =
      (cells.mapM fun c => alone (fun fuel => readMember (read fuel)) c.item.text).map (·, k) := by
  have hcells : ∀ c ∈ cells, Apart (fun fuel => readMember (read fuel)) c.item.text := fun c hc =>
    (apart_member (h c hc)).1
  obtain ⟨c, cs, hskip, ⟨rfl, rfl, rfl⟩ | ⟨-, hbrace, hread⟩⟩ :=
    bracketed_cases hblank hcells (.inr rfl) hfuel hrest
  · rw [readObject, hskip]
    rfl
  · exact (readObject_of_starts hskip hbrace).trans hread

/-- Some outcome of reading a text stands whatever follows. -/
def Decided (cs : List Char) (depth : Nat) : Prop :=
  ∃ o : Option Json, ∀ {fuel}, cs.length ≤ fuel → ∀ k, readValue fuel depth (cs ++ k) = o.map (·, k)

-- A container is one level deeper than what it holds, and where no level is left it is refused at once.
theorem decided_array {blank : List Char} {cells : List (Cell (List Char))} (hblank : Blank blank)
    (h : ∀ c ∈ cells, ∀ depth, Apart (fun fuel => readValue fuel depth) c.item) (depth : Nat) :
    Decided (bracketed '[' ']' id blank cells) depth := by
  cases depth with
  | zero => exact ⟨none, fun _ _ => rfl⟩
  | succ depth =>
    refine ⟨(cells.mapM fun c => alone (fun fuel => readValue fuel depth) c.item).map .array, ?_⟩
    intro fuel hfuel k
    have hread := readArray_bracketed (k := k) hblank (fun c hc => h c hc depth) (Nat.le_succ_of_le hfuel)
      List.cons_append
    rw [bracketed, List.cons_append, readValue, hread, Option.map_map, Option.map_map]
    rfl

theorem decided_object {blank : List Char} {cells : List (Cell Member)} (hblank : Blank blank)
    (h : ∀ c ∈ cells, ∀ depth, Apart (fun fuel => readValue fuel depth) c.item.value) (depth : Nat) :
    Decided (bracketed '\x7b' '\x7d' Member.text blank cells) depth := by
  cases depth with
  | zero => exact ⟨none, fun _ _ => rfl⟩
  | succ depth =>
    refine ⟨(cells.mapM fun c => alone (fun fuel => readMember (readValue fuel depth)) c.item.text).map
      fun ms => .object (Assoc.ofList ms), ?_⟩
    intro fuel hfuel k
    have hread := readObject_bracketed (k := k) hblank (fun c hc => h c hc depth) (Nat.le_succ_of_le hfuel)
      List.cons_append
    rw [bracketed, List.cons_append, readValue, hread, Option.map_map, Option.map_map]
    rfl

theorem Decided.apart {cs : List Char} {depth : Nat} (h : Decided cs depth) (hstarts : StartsItem cs) :
    Apart (fun fuel => readValue fuel depth) cs := by
  obtain ⟨o, ho⟩ := h
  exact .of_outcome hstarts fun _ hfuel => ho hfuel _

theorem apart_word {v : Json} {c : Char} {cs : List Char}
    (hc : isSpace c = false ∧ c ≠ ']' ∧ c ≠ '\x7d' ∧ c ≠ '[' ∧ c ≠ '\x7b')
    (h : ∀ {k}, Stops k → readScalar (c :: cs ++ k) = some (v, k)) (depth : Nat) :
    Apart (fun fuel => readValue fuel depth) (c :: cs) := by
  refine .of_outcome (o := some v) ⟨c, cs, rfl, hc.1, hc.2.1, hc.2.2.1⟩ fun hk _ => ?_
  exact (readValue_scalar hc.2.2.2.1 hc.2.2.2.2 ..).trans (h hk)

/-- Every value is read apart from what follows it, however many levels are left. -/
theorem IsValue.apart {cs : List Char} (h : IsValue cs) : ∀ depth, Apart (fun fuel => readValue fuel depth) cs := by
  have hstarts := h.starts
  induction h with
  | null => exact apart_word (v := .null) (by decide) fun _ => rfl
  | bool b =>
    cases b with
    | true => exact apart_word (v := .bool true) (by decide) fun _ => rfl
    | false => exact apart_word (v := .bool false) (by decide) fun _ => rfl
  | @number ds h =>
    have hread : ∀ {k}, Stops k → readScalar (ds ++ k) = some (.number (String.ofList ds), k) := by
      intro k hk
      have hliteral : IsNumber (String.ofList ds).toList := by rwa [String.toList_ofList]
      have hnumber := readScalar_number hliteral hk
      rwa [String.toList_ofList] at hnumber
    have hchars := h.chars
    obtain ⟨c, rest, rfl, -⟩ := h.head
    have hc := hchars c List.mem_cons_self
    refine apart_word ⟨isSpace_of_isNumberChar hc, ?_, ?_, ?_, ?_⟩ hread
    all_goals exact ne_of_isNumberChar hc (by decide)
  | @string cs h =>
    refine apart_word (v := .string (contentString cs)) (by decide) fun {k} _ => ?_
    rw [List.cons_append, List.append_assoc, List.singleton_append, readScalar, h.readString_append]
    rfl
  | array hblank h ih =>
    intro depth
    exact (decided_array hblank (fun c hc => ih c hc (h c hc).starts) depth).apart hstarts
  | object hblank h ih =>
    intro depth
    exact (decided_object hblank (fun c hc => ih c hc (h c hc).starts) depth).apart hstarts

/-! ## Texts as they stand -/

theorem readRaw_append {fuel depth : Nat} {cs k : List Char} {o : Option Json}
    (h : readValue fuel depth (cs ++ k) = o.map (·, k)) :
    readRaw fuel depth (cs ++ k) = (o.map fun _ => cs).map (·, k) := by
  rw [readRaw, h]
  cases o with
  | none => rfl
  | some v => simp

theorem IsValue.apart_raw {cs : List Char} (h : IsValue cs) (depth : Nat) :
    Apart (fun fuel => readRaw fuel depth) cs ∧
      ∀ raw, alone (fun fuel => readRaw fuel depth) cs = some raw → raw = cs := by
  have hread : ∀ {fuel k}, Stops k → cs.length ≤ fuel → readRaw fuel depth (cs ++ k) =
      ((alone (fun fuel => readValue fuel depth) cs).map fun _ => cs).map (·, k) := fun hk hfuel =>
    readRaw_append ((h.apart depth).append hk hfuel)
  refine ⟨.of_outcome h.starts hread, fun raw hraw => ?_⟩
  rw [alone_eq hread] at hraw
  obtain ⟨_, -, heq⟩ := Option.map_eq_some_iff.mp hraw
  exact heq.symm

/-- An object is taken up to its closing brace or refused, whatever follows. -/
theorem IsObject.readRaw_append {members : List (String × List Char)} {cs : List Char} (h : IsObject members cs)
    (depth : Nat) : ∃ o, (∀ raw, o = some raw → raw = cs) ∧
      ∀ {fuel}, cs.length ≤ fuel → ∀ k, readRaw fuel depth (cs ++ k) = o.map (·, k) := by
  obtain ⟨blank, cells, hblank, hvalues, rfl, -⟩ := h
  obtain ⟨o, ho⟩ := decided_object hblank (fun c hc => (hvalues c hc).apart) depth
  refine ⟨o.map fun _ => bracketed '\x7b' '\x7d' Member.text blank cells, ?_, ?_⟩
  · intro raw hraw
    obtain ⟨_, -, heq⟩ := Option.map_eq_some_iff.mp hraw
    exact heq.symm
  · exact fun hfuel k => Json.readRaw_append (ho hfuel k)

end SolidityAst.Json
