import SolidityAst.Proofs.Json.Values

/-!
Texts that differ only in their blanks.

The compact and the spread form of a value have the same tokens; a layout says which blanks stand between
them. Whatever the layout, the value is read back, and without its blanks the text is the compact one.
-/
namespace SolidityAst.Json

open Text

/-! ## Blanks -/

/-- Only blanks. -/
def Blank (b : List Char) : Prop := ∀ c ∈ b, isSpace c = true

theorem blank_nil : Blank [] := fun _ h => nomatch h

theorem skipSpace_append {b : List Char} (h : Blank b) (cs : List Char) :
    skipSpace (b ++ cs) = skipSpace cs :=
  List.dropWhile_append_of_pos h

theorem skipSpace_cons {c : Char} (h : isSpace c = false) (cs : List Char) :
    skipSpace (c :: cs) = c :: cs :=
  List.dropWhile_cons_of_neg (by simp [h])

theorem stops_append {b : List Char} (hb : Blank b) {k : List Char} (hk : Stops k) : Stops (b ++ k) := by
  cases b with
  | nil => exact hk
  | cons c b =>
    have hc : isSpace c = true := hb c List.mem_cons_self
    simp only [isSpace, Bool.or_eq_true, decide_eq_true_eq] at hc
    rcases hc with ((rfl | rfl) | rfl) | rfl <;> exact stops_cons (by decide) _

/-! ## Layouts -/

/-- The blanks around the cells of a container on each level, and after the colon of a member. -/
structure Layout where
  gap : Nat → List Char
  after : List Char
  blank_gap : ∀ level, Blank (gap level)
  blank_after : Blank after

/-- No blanks at all. -/
def Layout.tight : Layout := ⟨fun _ => [], [], fun _ => blank_nil, blank_nil⟩

theorem blank_newline {indent : List Char} (h : Blank indent) (level : Nat) :
    Blank (newline indent level []) := by
  intro c hc
  rw [newline, List.append_nil] at hc
  rcases List.mem_cons.mp hc with rfl | hc
  · decide
  · obtain ⟨line, hline, hc⟩ := List.mem_flatten.mp hc
    rw [List.eq_of_mem_replicate hline] at hc
    exact h c hc

/-- Each cell on a line of its own. -/
def Layout.lines (indent : List Char) (h : Blank indent) : Layout :=
  ⟨fun level => newline indent level [], [' '], blank_newline h, by intro c hc; cases hc with
    | head => decide
    | tail _ hc => cases hc⟩

section Cells

variable {α : Type}

/-- Cells with a comma and a gap between each two, before `k`. -/
def joined (cell : α → List Char → List Char) (gap : List Char) : List α → List Char → List Char
  | [], k => k
  | [x], k => cell x k
  | x :: y :: ys, k => cell x (',' :: (gap ++ joined cell gap (y :: ys) k))

/-- Cells in brackets, before `k`; there are no blanks between empty brackets. -/
def enclosed (cell : α → List Char → List Char) (layout : Layout) (level : Nat) (start close : Char) :
    List α → List Char → List Char
  | [], k => start :: close :: k
  | x :: xs, k =>
    start :: (layout.gap (level + 1) ++
      joined cell (layout.gap (level + 1)) (x :: xs) (layout.gap level ++ close :: k))

/-- A member, before `k`. -/
def memberText (style : Style) (layout : Layout) (text : Json → List Char → List Char)
    (m : String × Json) (k : List Char) : List Char :=
  writeString style m.1 (':' :: (layout.after ++ text m.2 k))

end Cells

/-- What the text of a value is on each level. -/
structure Writes (style : Style) (layout : Layout) (text : Nat → Json → List Char → List Char) : Prop where
  null : ∀ level k, text level .null k = "null".toList ++ k
  bool : ∀ level b k, text level (.bool b) k = (if b then "true".toList else "false".toList) ++ k
  number : ∀ level literal k, text level (.number literal) k = literal.toList ++ k
  string : ∀ level s k, text level (.string s) k = writeString style s k
  array : ∀ level vs k, text level (.array vs) k = enclosed (text (level + 1)) layout level '[' ']' vs k
  object : ∀ level ms k, text level (.object ms) k =
    enclosed (memberText style layout (text (level + 1))) layout level '\x7b' '\x7d' ms k

theorem writeItems_eq_joined (style : Style) :
    ∀ (vs : List Json) (k : List Char), writeItems style vs k = joined (write style) [] vs k
  | [], k => by rw [writeItems, joined]
  | [v], k => by rw [writeItems, joined]
  | v :: w :: vs, k => by
    rw [writeItems, joined, writeItems_eq_joined style (w :: vs) k]
    rfl

theorem writeMembers_eq_joined (style : Style) :
    ∀ (ms : List (String × Json)) (k : List Char),
      writeMembers style ms k = joined (memberText style .tight (write style)) [] ms k
  | [], k => by rw [writeMembers, joined]
  | [(key, v)], k => by
    rw [writeMembers, joined]
    rfl
  | (key, v) :: m :: ms, k => by
    rw [writeMembers, joined, writeMembers_eq_joined style (m :: ms) k]
    rfl

theorem writes_compact (style : Style) : Writes style .tight fun _ => write style where
  null _ k := by rw [write]
  bool _ b k := by rw [write]
  number _ literal k := by rw [write]
  string _ s k := by rw [write]
  array _ vs k := by
    rw [write, writeItems_eq_joined]
    cases vs with
    | nil => rfl
    | cons v vs => rfl
  object _ ms k := by
    rw [write, writeMembers_eq_joined]
    cases ms with
    | nil => rfl
    | cons m ms => rfl

theorem newline_eq_append (indent : List Char) (level : Nat) (k : List Char) :
    newline indent level k = newline indent level [] ++ k := by
  rw [newline, newline, List.append_nil, List.cons_append]

theorem spreadItems_eq_joined (style : Style) (indent : List Char) (level : Nat) :
    ∀ (vs : List Json) (k : List Char), spreadItems style indent level vs k =
      joined (writeSpread style indent level) (newline indent level []) vs k
  | [], k => by rw [spreadItems, joined]
  | [v], k => by rw [spreadItems, joined]
  | v :: w :: vs, k => by
    rw [spreadItems, joined, spreadItems_eq_joined style indent level (w :: vs) k,
      newline_eq_append]

theorem spreadMembers_eq_joined (style : Style) {indent : List Char} (h : Blank indent) (level : Nat) :
    ∀ (ms : List (String × Json)) (k : List Char), spreadMembers style indent level ms k =
      joined (memberText style (.lines indent h) (writeSpread style indent level))
        (newline indent level []) ms k
  | [], k => by rw [spreadMembers, joined]
  | [(key, v)], k => by
    rw [spreadMembers, joined]
    rfl
  | (key, v) :: m :: ms, k => by
    rw [spreadMembers, joined, spreadMembers_eq_joined style h level (m :: ms) k,
      newline_eq_append]
    rfl

theorem writes_spread (style : Style) {indent : List Char} (h : Blank indent) :
    Writes style (.lines indent h) (writeSpread style indent) where
  null level k := by rw [writeSpread]
  bool level b k := by rw [writeSpread]
  number level literal k := by rw [writeSpread]
  string level s k := by rw [writeSpread]
  array level vs k := by
    cases vs with
    | nil => rw [writeSpread, enclosed]
    | cons v vs =>
      rw [writeSpread, spreadItems_eq_joined, newline_eq_append, newline_eq_append _ level]
      rfl
  object level ms k := by
    cases ms with
    | nil => rw [writeSpread, enclosed]
    | cons m ms =>
      rw [writeSpread, spreadMembers_eq_joined style h, newline_eq_append, newline_eq_append _ level]
      rfl

/-! ## What follows a text -/

theorem writeString_append (style : Style) (s : String) (k k' : List Char) :
    writeString style s (k ++ k') = writeString style s k ++ k' := by
  rw [writeString, writeString, List.cons_append, List.append_assoc, List.cons_append]

section Cells

variable {α : Type} {cell : α → List Char → List Char}

theorem joined_append (gap : List Char) {xs : List α}
    (h : ∀ x ∈ xs, ∀ k k', cell x (k ++ k') = cell x k ++ k') (k k' : List Char) :
    joined cell gap xs (k ++ k') = joined cell gap xs k ++ k' := by
  induction xs with
  | nil => rfl
  | cons x xs ih =>
    have hx := h x List.mem_cons_self
    cases xs with
    | nil => exact hx k k'
    | cons y ys =>
      rw [joined, joined, ih fun z hz => h z (List.mem_cons_of_mem _ hz), ← List.append_assoc,
        ← List.cons_append, hx]

theorem enclosed_append {layout : Layout} {level : Nat} {start close : Char} {xs : List α}
    (h : ∀ x ∈ xs, ∀ k k', cell x (k ++ k') = cell x k ++ k') (k k' : List Char) :
    enclosed cell layout level start close xs (k ++ k') =
      enclosed cell layout level start close xs k ++ k' := by
  cases xs with
  | nil => rfl
  | cons x xs =>
    have hcells := joined_append (layout.gap (level + 1)) h (layout.gap level ++ close :: k) k'
    rw [List.append_assoc, List.cons_append] at hcells
    rw [enclosed, enclosed, hcells, List.cons_append, List.append_assoc]

end Cells

theorem Writes.append {style : Style} {layout : Layout} {text : Nat → Json → List Char → List Char}
    (hw : Writes style layout text) {v : Json} (h : WellFormed v) :
    ∀ (level : Nat) (k k' : List Char), text level v (k ++ k') = text level v k ++ k' := by
  induction h with
  | null =>
    intro level k k'
    rw [hw.null, hw.null, List.append_assoc]
  | bool b =>
    intro level k k'
    rw [hw.bool, hw.bool, List.append_assoc]
  | number _ =>
    intro level k k'
    rw [hw.number, hw.number, List.append_assoc]
  | string s =>
    intro level k k'
    rw [hw.string, hw.string, writeString_append]
  | array _ ih =>
    intro level k k'
    rw [hw.array, hw.array, enclosed_append fun v hv => ih v hv (level + 1)]
  | object _ _ ih =>
    intro level k k'
    rw [hw.object, hw.object, enclosed_append fun m hm k k' => ?_]
    rw [memberText, memberText, ih m hm, ← List.append_assoc, ← List.cons_append, writeString_append]

/-! ## Reading a text back -/

/-- The text `cell` makes is read back as `y`, in a text of at most `size` characters. -/
structure ReadsBack {β : Type} (size : Nat) (read : Read β) (cell : List Char → List Char) (y : β) :
    Prop where
  grows : ∀ k, k.length < (cell k).length
  starts : ∀ k, ∃ c cs, cell k = c :: cs ∧ isSpace c = false ∧ c ≠ ']' ∧ c ≠ '\x7d'
  back : ∀ k, Stops k → (cell k).length ≤ size → read (cell k) = some (y, k)

section Cells

variable {α β : Type} {size : Nat} {read : Read β} {cell : α → List Char → List Char} {f : α → β}
  {gap : List Char} {close : Char}

theorem ReadsBack.skipSpace_text {cell : List Char → List Char} {y : β} (h : ReadsBack size read cell y)
    {b : List Char} (hb : Blank b) (k : List Char) : skipSpace (b ++ cell k) = cell k := by
  obtain ⟨c, cs, hcell, hspace, -⟩ := h.starts k
  rw [skipSpace_append hb, hcell, skipSpace_cons hspace]

theorem length_joined (gap : List Char) {xs : List α}
    (h : ∀ x ∈ xs, ∀ k, k.length < (cell x k).length) (k : List Char) :
    xs.length + k.length ≤ (joined cell gap xs k).length := by
  induction xs with
  | nil => exact Nat.le_of_eq (Nat.zero_add _)
  | cons x xs ih =>
    have hx := h x List.mem_cons_self
    cases xs with
    | nil =>
      rw [joined, List.length_singleton]
      have := hx k
      omega
    | cons y ys =>
      have hrest := ih fun z hz => h z (List.mem_cons_of_mem _ hz)
      have hfirst := hx (',' :: (gap ++ joined cell gap (y :: ys) k))
      rw [joined]
      simp only [List.length_cons, List.length_append] at hrest hfirst ⊢
      omega

-- The induction is on the cells.  Each is read from the text of all that follows it, which is no longer
-- than the whole.
theorem readCells_joined (hgap : Blank gap) {last : List Char} (hlast : Blank last)
    (hclose : isSpace close = false ∧ close ≠ ',') {k : List Char} (hk : Stops (close :: k)) :
    ∀ {xs : List α} {fuel : Nat} {b : List Char}, xs ≠ [] → xs.length ≤ fuel → Blank b →
      (∀ x ∈ xs, ReadsBack size read (cell x) (f x)) →
      (joined cell gap xs (last ++ close :: k)).length ≤ size →
      readCells read close fuel (b ++ joined cell gap xs (last ++ close :: k)) = some (xs.map f, k) := by
  intro xs
  induction xs with
  | nil => exact fun hne => absurd rfl hne
  | cons x xs ih =>
    intro fuel b _ hfuel hb hcells hsize
    obtain ⟨fuel, rfl⟩ := Nat.exists_eq_add_one_of_ne_zero (show fuel ≠ 0 by
      rw [List.length_cons] at hfuel; omega)
    have hx := hcells x List.mem_cons_self
    cases xs with
    | nil =>
      -- Behind the last cell come blanks and the closing bracket.
      rw [joined] at hsize ⊢
      rw [readCells, hx.skipSpace_text hb, hx.back _ (stops_append hlast hk) hsize]
      dsimp only
      rw [skipSpace_append hlast, skipSpace_cons hclose.1]
      dsimp only
      rw [if_neg hclose.2, if_pos rfl]
      rfl
    | cons y ys =>
      -- A comma ends the cell, and the text behind it is shorter.
      have hrest := fun z hz => hcells z (List.mem_cons_of_mem _ hz)
      rw [joined] at hsize ⊢
      have hcomma : Stops (',' :: (gap ++ joined cell gap (y :: ys) (last ++ close :: k))) :=
        stops_cons (by decide) _
      have hshorter := hx.grows (',' :: (gap ++ joined cell gap (y :: ys) (last ++ close :: k)))
      rw [readCells, hx.skipSpace_text hb, hx.back _ hcomma hsize]
      dsimp only
      rw [skipSpace_cons (by decide)]
      dsimp only
      rw [if_pos rfl, ih (by simp) (by rw [List.length_cons] at hfuel; omega) hgap hrest (by
        simp only [List.length_cons, List.length_append] at hshorter
        omega)]
      rfl

theorem length_enclosed (layout : Layout) (level : Nat) (start close : Char) {xs : List α}
    (h : ∀ x ∈ xs, ∀ k, k.length < (cell x k).length) (k : List Char) :
    xs.length + k.length < (enclosed cell layout level start close xs k).length := by
  cases xs with
  | nil =>
    rw [enclosed]
    simp only [List.length_cons, List.length_nil]
    omega
  | cons x xs =>
    have hjoined := length_joined (layout.gap (level + 1)) h (layout.gap level ++ close :: k)
    rw [enclosed]
    simp only [List.length_cons, List.length_append] at hjoined ⊢
    omega

end Cells

/-! ### Scalars -/

theorem readValue_scalar {c : Char} (harray : c ≠ '[') (hobject : c ≠ '\x7b') (fuel depth : Nat)
    (cs : List Char) : readValue fuel depth (c :: cs) = readScalar (c :: cs) := by
  cases depth with
  | zero => rw [readValue]
  | succ depth =>
    rw [readValue]
    · exact fun rest h => harray (List.cons.inj h).1
    · exact fun rest h => hobject (List.cons.inj h).1

theorem readScalar_number {literal : String} (h : IsNumber literal.toList) {k : List Char}
    (hk : Stops k) : readScalar (literal.toList ++ k) = some (.number literal, k) := by
  have hread := readNumber_append h hk
  obtain ⟨c, cs, hcs, hc⟩ := h.head
  rw [hcs, List.cons_append] at hread ⊢
  -- No other value starts with a digit or a minus sign.
  have hother : ∀ d, (isDigit d = false ∧ d ≠ '-') → c ≠ d := by
    rintro d ⟨hdigit, hminus⟩ rfl
    rcases hc with hc | hc
    · rw [hc] at hdigit
      cases hdigit
    · exact hminus hc
  rw [readScalar, hread, Option.map_some]
  · exact fun rest h => hother 'n' (by decide) (List.cons.inj h).1
  · exact fun rest h => hother 't' (by decide) (List.cons.inj h).1
  · exact fun rest h => hother 'f' (by decide) (List.cons.inj h).1
  · exact fun rest h => hother '"' (by decide) (List.cons.inj h).1

/-! ### Containers -/

section Containers

variable {α β : Type} {size : Nat} {read : Read β} {cell : α → List Char → List Char} {f : α → β}
  {layout : Layout} {level : Nat} {start close : Char}

theorem ReadsBack.enclosed_grows {xs : List α} (h : ∀ x ∈ xs, ReadsBack size read (cell x) (f x))
    (k : List Char) : k.length < (enclosed cell layout level start close xs k).length := by
  have hlength := length_enclosed layout level start close
    (fun x hx => (h x hx).grows) k
  omega

theorem enclosed_starts (cell : α → List Char → List Char) (layout : Layout) (level : Nat)
    (start close : Char) (xs : List α) (k : List Char) :
    ∃ cs, enclosed cell layout level start close xs k = start :: cs := by
  cases xs <;> exact ⟨_, rfl⟩

theorem exists_joined (cell : α → List Char → List Char) (gap : List Char) (x : α) (xs : List α)
    (k : List Char) : ∃ k', joined cell gap (x :: xs) k = cell x k' := by
  cases xs <;> exact ⟨_, rfl⟩

-- After the opening bracket and the blanks there the cells are read, and none of them starts with a
-- closing bracket.
theorem ReadsBack.enclosed_cells {x : α} {xs : List α}
    (h : ∀ y ∈ x :: xs, ReadsBack size read (cell y) (f y))
    (hclose : close = ']' ∨ close = '\x7d') (k : List Char)
    (hsize : (enclosed cell layout level start close (x :: xs) k).length ≤ size) :
    ∃ rest c cs, enclosed cell layout level start close (x :: xs) k = start :: rest ∧
      skipSpace rest = c :: cs ∧ c ≠ ']' ∧ c ≠ '\x7d' ∧
      readCells read close size (c :: cs) = some ((x :: xs).map f, k) := by
  have hfirst := h x List.mem_cons_self
  obtain ⟨k', hk'⟩ := exists_joined cell (layout.gap (level + 1)) x xs
    (layout.gap level ++ close :: k)
  obtain ⟨c, cs, hcell, hspace, hbracket, hbrace⟩ := hfirst.starts k'
  refine ⟨_, c, cs, rfl, ?_, hbracket, hbrace, ?_⟩
  · rw [hk', hfirst.skipSpace_text (layout.blank_gap _), hcell]
  · have hlength := length_enclosed layout level start close (fun y hy => (h y hy).grows) k
    have hclose' : isSpace close = false ∧ close ≠ ',' := by rcases hclose with rfl | rfl <;> decide
    have hk : Stops (close :: k) := by rcases hclose with rfl | rfl <;> exact stops_cons (by decide) k
    rw [← hcell, ← hk']
    refine readCells_joined (b := []) (layout.blank_gap _) (layout.blank_gap _) hclose' hk
      (List.cons_ne_nil _ _) (by omega) blank_nil h ?_
    rw [enclosed] at hsize
    simp only [List.length_cons, List.length_append] at hsize ⊢
    omega

theorem readArray_of_starts {item : Read β} {fuel : Nat} {rest cs : List Char} {c : Char}
    (h : skipSpace rest = c :: cs) (hc : c ≠ ']') :
    readArray item fuel rest = readCells item ']' fuel (c :: cs) := by
  rw [readArray, h, readItems_eq_readCells]
  split
  · rename_i heq
    exact absurd (List.cons.inj heq).1 hc
  · rfl

theorem readObject_of_starts {item : Read β} {fuel : Nat} {rest cs : List Char} {c : Char}
    (h : skipSpace rest = c :: cs) (hc : c ≠ '\x7d') :
    readObject item fuel rest = readCells (readMember item) '\x7d' fuel (c :: cs) := by
  rw [readObject, h, readMembers_eq_readCells]
  split
  · rename_i heq
    exact absurd (List.cons.inj heq).1 hc
  · rfl

end Containers

/-! ### Values -/

section Values

variable {style : Style} {layout : Layout} {text : Nat → Json → List Char → List Char} {size : Nat}

theorem ReadsBack.array {d level : Nat} {vs : List Json}
    (h : ∀ v ∈ vs, ReadsBack size (readValue size d) (text (level + 1) v) (sorted v)) :
    ReadsBack size (readValue size (d + 1)) (enclosed (text (level + 1)) layout level '[' ']' vs)
      (.array (vs.map sorted)) where
  grows := enclosed_grows h
  starts k := by
    obtain ⟨cs, hcs⟩ := enclosed_starts (text (level + 1)) layout level '[' ']' vs k
    exact ⟨'[', cs, hcs, by decide⟩
  back k _ hsize := by
    cases vs with
    | nil => rfl
    | cons v vs =>
      obtain ⟨rest, c, cs, htext, hskip, hbracket, -, hcells⟩ := enclosed_cells h (.inl rfl) k hsize
      rw [htext, readValue, readArray_of_starts hskip hbracket, hcells]
      rfl

theorem length_writeString (style : Style) (s : String) (k : List Char) :
    k.length < (writeString style s k).length := by
  rw [writeString]
  simp only [List.length_cons, List.length_append]
  omega

theorem readMember_of_key {β : Type} {item : Read β} {cs rest : List Char} {key : String}
    (h : readString cs = some (key, ':' :: rest)) :
    readMember item ('"' :: cs) = (item (skipSpace rest)).map fun (v, rest) => ((key, v), rest) := by
  rw [readMember, h]
  rfl

theorem ReadsBack.member {d level : Nat} {m : String × Json}
    (h : ReadsBack size (readValue size d) (text level m.2) (sorted m.2)) :
    ReadsBack size (readMember (readValue size d)) (memberText style layout (text level) m)
      (m.1, sorted m.2) where
  grows k := by
    have hvalue := h.grows k
    have hkey := length_writeString style m.1 (':' :: (layout.after ++ text level m.2 k))
    rw [memberText]
    simp only [List.length_cons, List.length_append] at hkey
    omega
  starts k := ⟨'"', _, rfl, by decide⟩
  back k hk hsize := by
    -- The text of the value is shorter than that of the member by the key.
    have hkey := length_writeString style m.1 (':' :: (layout.after ++ text level m.2 k))
    rw [memberText] at hsize
    simp only [List.length_cons, List.length_append] at hkey
    rw [memberText, writeString, readMember_of_key (readString_written style m.1 _),
      h.skipSpace_text layout.blank_after, h.back k hk (by omega)]
    rfl

theorem ReadsBack.object {d level : Nat} {ms : List (String × Json)}
    (h : ∀ m ∈ ms, ReadsBack size (readValue size d) (text (level + 1) m.2) (sorted m.2)) :
    ReadsBack size (readValue size (d + 1))
      (enclosed (memberText style layout (text (level + 1))) layout level '\x7b' '\x7d' ms)
      (.object (Assoc.ofList (ms.map fun m => (m.1, sorted m.2)))) where
  grows := enclosed_grows fun m hm => member (h m hm)
  starts k := by
    obtain ⟨cs, hcs⟩ := enclosed_starts (memberText style layout (text (level + 1))) layout level
      '\x7b' '\x7d' ms k
    exact ⟨'\x7b', cs, hcs, by decide⟩
  back k _ hsize := by
    cases ms with
    | nil => rfl
    | cons m ms =>
      obtain ⟨rest, c, cs, htext, hskip, -, hbrace, hcells⟩ :=
        enclosed_cells (fun m hm => member (h m hm)) (.inr rfl) k hsize
      rw [htext, readValue, readObject_of_starts hskip hbrace, hcells]
      rfl

-- A word whose first character is no bracket is read as a scalar.
theorem ReadsBack.scalar {d : Nat} {cell : List Char → List Char} {c : Char} {v : Json}
    (hc : isSpace c = false ∧ c ≠ ']' ∧ c ≠ '\x7d' ∧ c ≠ '[' ∧ c ≠ '\x7b')
    (hstarts : ∀ k, ∃ cs, cell k = c :: cs ∧ k.length ≤ cs.length)
    (hback : ∀ k, Stops k → readScalar (cell k) = some (v, k)) :
    ReadsBack size (readValue size d) cell v where
  grows k := by
    obtain ⟨cs, hcell, hlength⟩ := hstarts k
    rw [hcell, List.length_cons]
    omega
  starts k := by
    obtain ⟨cs, hcell, -⟩ := hstarts k
    exact ⟨c, cs, hcell, hc.1, hc.2.1, hc.2.2.1⟩
  back k hk _ := by
    have hread := hback k hk
    obtain ⟨cs, hcell, -⟩ := hstarts k
    rw [hcell] at hread ⊢
    rw [readValue_scalar hc.2.2.2.1 hc.2.2.2.2, hread]

theorem ReadsBack.word {d : Nat} {c : Char} {cs : List Char} {v : Json}
    (hc : isSpace c = false ∧ c ≠ ']' ∧ c ≠ '\x7d' ∧ c ≠ '[' ∧ c ≠ '\x7b')
    (hback : ∀ k, Stops k → readScalar (c :: cs ++ k) = some (v, k)) :
    ReadsBack size (readValue size d) (c :: cs ++ ·) v :=
  .scalar hc (fun k => ⟨cs ++ k, rfl, by simp⟩) hback

/-- A well-formed value is read back from each of its texts, with the members of its objects sorted. -/
theorem Writes.readsBack (hw : Writes style layout text) (size : Nat) {v : Json} (h : WellFormed v) :
    ∀ {d : Nat} (level : Nat), v.depth ≤ d →
      ReadsBack size (readValue size d) (text level v) (sorted v) := by
  induction h with
  | null =>
    intro d level _
    rw [show text level .null = _ from funext (hw.null level)]
    exact .word (c := 'n') (by decide) fun k _ => rfl
  | bool b =>
    intro d level _
    rw [show text level (.bool b) = _ from funext (hw.bool level b)]
    cases b with
    | true => exact .word (c := 't') (by decide) fun k _ => rfl
    | false => exact .word (c := 'f') (by decide) fun k _ => rfl
  | @number literal hnumber =>
    intro d level _
    rw [show text level (.number literal) = _ from funext (hw.number level literal)]
    -- The first character is one that occurs in literals, and no bracket does.
    have hread := fun k hk => readScalar_number (k := k) hnumber hk
    have hchars := hnumber.chars
    obtain ⟨c, cs, hcs, -⟩ := hnumber.head
    rw [hcs] at hread hchars ⊢
    have hc := hchars c List.mem_cons_self
    refine .word ⟨isSpace_of_isNumberChar hc, ?_, ?_, ?_, ?_⟩ hread
    all_goals exact ne_of_isNumberChar hc (by decide)
  | string s =>
    intro d level _
    rw [show text level (.string s) = _ from funext (hw.string level s)]
    refine .scalar (c := '"') (by decide) (fun k => ⟨_, rfl, by simp; omega⟩) fun k _ => ?_
    rw [writeString, readScalar, readString_written]
    rfl
  | @array vs _ ih =>
    intro d level hdepth
    -- Brackets take one off the depth that is left, for the reader as for the value.
    rw [depth] at hdepth
    obtain ⟨d, rfl⟩ := Nat.exists_eq_add_one_of_ne_zero (show d ≠ 0 by omega)
    rw [show text level (.array vs) = _ from funext (hw.array level vs), sorted, sortedItems_eq_map]
    refine .array fun v hv => ih v hv (level + 1) ?_
    have := depth_le_itemsDepth hv
    omega
  | @object ms _ _ ih =>
    intro d level hdepth
    rw [depth] at hdepth
    obtain ⟨d, rfl⟩ := Nat.exists_eq_add_one_of_ne_zero (show d ≠ 0 by omega)
    rw [show text level (.object ms) = _ from funext (hw.object level ms), sorted, sortedMembers_eq_map]
    refine .object fun m hm => ih m hm (level + 1) ?_
    have := depth_le_membersDepth hm
    omega

theorem Writes.read?_text (hw : Writes style layout text) {v : Json} (h : WellFormed v)
    (hdepth : v.depth ≤ maxDepth) (level : Nat) {k : List Char} (hk : Stops k) :
    read? (text level v k) = some (sorted v, k) := by
  have hback := hw.readsBack (text level v k).length h level hdepth
  rw [read?]
  have hskip : skipSpace (text level v k) = text level v k := hback.skipSpace_text blank_nil k
  rw [hskip, hback.back k hk (Nat.le_refl _)]

end Values

/-! ## Removing blanks -/

/-- Where in a text a character stands: outside strings, inside one, or inside one after a backslash. -/
inductive Scan where
  | outside
  | inside
  | escaped

/-- The text without the blanks outside strings. -/
def withoutBlanks : Scan → List Char → List Char
  | _, [] => []
  | .outside, c :: cs =>
    if c = '"' then c :: withoutBlanks .inside cs
    else if isSpace c then withoutBlanks .outside cs
    else c :: withoutBlanks .outside cs
  | .inside, c :: cs =>
    if c = '"' then c :: withoutBlanks .outside cs
    else if c = '\\' then c :: withoutBlanks .escaped cs
    else c :: withoutBlanks .inside cs
  | .escaped, c :: cs => c :: withoutBlanks .inside cs

theorem withoutBlanks_blank {b : List Char} (h : Blank b) (k : List Char) :
    withoutBlanks .outside (b ++ k) = withoutBlanks .outside k := by
  induction b with
  | nil => rfl
  | cons c b ih =>
    have hc : isSpace c = true := h c List.mem_cons_self
    have hquote : c ≠ '"' := fun hc' => absurd (hc' ▸ hc) (by decide)
    rw [List.cons_append, withoutBlanks, if_neg hquote, if_pos hc]
    exact ih fun d hd => h d (List.mem_cons_of_mem _ hd)

theorem withoutBlanks_cons {c : Char} (hspace : isSpace c = false) (hquote : c ≠ '"') (k : List Char) :
    withoutBlanks .outside (c :: k) = c :: withoutBlanks .outside k := by
  rw [withoutBlanks, if_neg hquote, if_neg (by simp [hspace])]

theorem withoutBlanks_word {cs : List Char} (h : ∀ c ∈ cs, isSpace c = false ∧ c ≠ '"')
    (k : List Char) : withoutBlanks .outside (cs ++ k) = cs ++ withoutBlanks .outside k := by
  induction cs with
  | nil => rfl
  | cons c cs ih =>
    obtain ⟨hspace, hquote⟩ := h c List.mem_cons_self
    rw [List.cons_append, withoutBlanks_cons hspace hquote, ih fun d hd => h d (List.mem_cons_of_mem _ hd),
      List.cons_append]

/-! ### Strings -/

theorem withoutBlanks_inside {c : Char} (hquote : c ≠ '"') (hslash : c ≠ '\\') (k : List Char) :
    withoutBlanks .inside (c :: k) = c :: withoutBlanks .inside k := by
  rw [withoutBlanks, if_neg hquote, if_neg hslash]

theorem hexDigit_plain : ∀ d < 16, hexDigit d ≠ '"' ∧ hexDigit d ≠ '\\' := by
  decide

theorem withoutBlanks_hexDigits (width n : Nat) (k : List Char) :
    withoutBlanks .inside (hexDigits width n ++ k) = hexDigits width n ++ withoutBlanks .inside k := by
  induction width with
  | zero => rfl
  | succ width ih =>
    obtain ⟨hquote, hslash⟩ := hexDigit_plain (n / Nat.pow 16 width % 16) (Nat.mod_lt _ (by decide))
    rw [hexDigits, List.cons_append, withoutBlanks_inside hquote hslash, ih, List.cons_append]

-- A quote inside a string stands behind a backslash, so no written character ends the string.
theorem Written.withoutBlanks_append {c : Char} {cs : List Char} (h : Written c cs) (k : List Char) :
    withoutBlanks .inside (cs ++ k) = cs ++ withoutBlanks .inside k := by
  cases h with
  | plain hquote hslash _ => exact withoutBlanks_inside hquote hslash k
  | short _ _ => rfl
  | code _ =>
    show '\\' :: 'u' :: withoutBlanks .inside (hexDigits 4 c.toNat ++ k) = _
    rw [withoutBlanks_hexDigits]
    rfl

theorem withoutBlanks_writeString (style : Style) (s : String) (k : List Char) :
    withoutBlanks .outside (writeString style s k) = writeString style s (withoutBlanks .outside k) := by
  have hinside : ∀ cs : List Char, withoutBlanks .inside (cs.flatMap (writeChar style) ++ '"' :: k) =
      cs.flatMap (writeChar style) ++ '"' :: withoutBlanks .outside k := by
    intro cs
    induction cs with
    | nil => rfl
    | cons c cs ih =>
      rw [List.flatMap_cons, List.append_assoc, (written_writeChar style c).withoutBlanks_append, ih,
        List.append_assoc]
  rw [writeString, withoutBlanks, if_pos rfl, hinside, writeString]

/-! ### Containers -/

section Cells

variable {α : Type} {cell tight : α → List Char → List Char}

theorem withoutBlanks_joined {gap : List Char} (hgap : Blank gap) {xs : List α}
    (h : ∀ x ∈ xs, ∀ k, withoutBlanks .outside (cell x k) = tight x (withoutBlanks .outside k))
    (k : List Char) : withoutBlanks .outside (joined cell gap xs k) =
      joined tight [] xs (withoutBlanks .outside k) := by
  induction xs with
  | nil => rfl
  | cons x xs ih =>
    have hx := h x List.mem_cons_self
    cases xs with
    | nil => exact hx k
    | cons y ys =>
      rw [joined, hx, withoutBlanks_cons (by decide) (by decide), withoutBlanks_blank hgap,
        ih fun z hz => h z (List.mem_cons_of_mem _ hz)]
      rfl

theorem withoutBlanks_enclosed {layout : Layout} {start close : Char}
    (hstart : isSpace start = false ∧ start ≠ '"') (hclose : isSpace close = false ∧ close ≠ '"')
    (level level' : Nat) {xs : List α}
    (h : ∀ x ∈ xs, ∀ k, withoutBlanks .outside (cell x k) = tight x (withoutBlanks .outside k))
    (k : List Char) : withoutBlanks .outside (enclosed cell layout level start close xs k) =
      enclosed tight .tight level' start close xs (withoutBlanks .outside k) := by
  cases xs with
  | nil =>
    rw [enclosed, withoutBlanks_cons hstart.1 hstart.2, withoutBlanks_cons hclose.1 hclose.2, enclosed]
  | cons x xs =>
    rw [enclosed, withoutBlanks_cons hstart.1 hstart.2, withoutBlanks_blank (layout.blank_gap _),
      withoutBlanks_joined (layout.blank_gap _) h, withoutBlanks_blank (layout.blank_gap _),
      withoutBlanks_cons hclose.1 hclose.2]
    rfl

end Cells

/-- Without its blanks each text of a value is its compact text. -/
theorem Writes.withoutBlanks {style : Style} {layout : Layout}
    {text : Nat → Json → List Char → List Char} (hw : Writes style layout text) {v : Json}
    (h : WellFormed v) : ∀ (level : Nat) (k : List Char),
      Json.withoutBlanks .outside (text level v k) = write style v (Json.withoutBlanks .outside k) := by
  have hcompact := writes_compact style
  induction h with
  | null =>
    intro level k
    rw [hw.null, withoutBlanks_word (by simp [isSpace]), hcompact.null 0]
  | bool b =>
    intro level k
    rw [hw.bool, withoutBlanks_word (by cases b <;> simp [isSpace]), hcompact.bool 0]
  | @number literal hnumber =>
    intro level k
    have hplain : ∀ c ∈ literal.toList, isSpace c = false ∧ c ≠ '"' := fun c hc =>
      ⟨isSpace_of_isNumberChar (hnumber.chars c hc), ne_of_isNumberChar (hnumber.chars c hc) (by decide)⟩
    rw [hw.number, withoutBlanks_word hplain, hcompact.number 0]
  | string s =>
    intro level k
    rw [hw.string, withoutBlanks_writeString, hcompact.string 0]
  | array _ ih =>
    intro level k
    rw [hw.array, hcompact.array 0]
    exact withoutBlanks_enclosed (by decide) (by decide) level 0
      (fun v hv k => ih v hv (level + 1) k) k
  | object _ _ ih =>
    intro level k
    rw [hw.object, hcompact.object 0]
    refine withoutBlanks_enclosed (by decide) (by decide) level 0 (fun m hm k => ?_) k
    rw [memberText, withoutBlanks_writeString, withoutBlanks_cons (by decide) (by decide),
      withoutBlanks_blank layout.blank_after, ih m hm]
    rfl

end SolidityAst.Json
