import SolidityAst.Proofs.Json.Layout

/-!
Where values stand in a text.

Whatever a reader takes, what it leaves is an end of the text.  So the number of characters of a value and the
number of those behind it tell which part of the text it is.
-/
namespace SolidityAst.Json

open Text

/-! ## Two readers side by side -/

/-- One reader follows another: where the other gives something, it gives something related and leaves the same
end of the text. -/
inductive Follows {α β : Type} (whole : List Char) (R : α → β → Prop) :
    Option (α × List Char) → Option (β × List Char) → Prop
  | none {o : Option (β × List Char)} : Follows whole R none o
  | some {a : α} {b : β} {rest : List Char} (h : R a b) (hrest : rest <:+ whole) :
      Follows whole R (some (a, rest)) (some (b, rest))

section

variable {α β γ δ : Type} {whole cs rest : List Char} {R : α → β → Prop}

theorem Follows.map {R' : γ → δ → Prop} {f : α → γ} {g : β → δ} (hR : ∀ a b, R a b → R' (f a) (g b))
    {o : Option (α × List Char)} {o' : Option (β × List Char)} (h : Follows whole R o o') :
    Follows whole R' (o.map fun p => (f p.1, p.2)) (o'.map fun p => (g p.1, p.2)) := by
  cases h with
  | none => exact .none
  | some h hrest => exact .some (hR _ _ h) hrest

theorem Follows.exists_some {a : α} {o : Option (β × List Char)} (h : Follows whole R (Option.some (a, rest)) o) :
    ∃ b, o = Option.some (b, rest) ∧ R a b ∧ rest <:+ whole := by
  cases h with
  | some h hrest => exact ⟨_, rfl, h, hrest⟩

theorem skipSpace_suffix (cs : List Char) : skipSpace cs <:+ cs := List.dropWhile_suffix _

variable {cell : Read α} {cell' : Read β} {close : Char}

theorem readCells_follows (hcell : ∀ {cs}, cs <:+ whole → Follows whole R (cell cs) (cell' cs)) (fuel : Nat)
    (hcs : cs <:+ whole) :
    Follows whole (List.Forall₂ R) (readCells cell close fuel cs) (readCells cell' close fuel cs) := by
  induction fuel generalizing cs with
  | zero => exact .none
  | succ fuel ih =>
    have hfirst := hcell ((skipSpace_suffix cs).trans hcs)
    unfold readCells
    generalize cell (skipSpace cs) = o at hfirst ⊢
    generalize cell' (skipSpace cs) = o' at hfirst ⊢
    cases hfirst with
    | none => exact .none
    | @some a b rest h hrest =>
      dsimp only
      cases hskip : skipSpace rest with
      | nil => exact .none
      | cons c after =>
        have hafter : after <:+ whole := by
          have hend := (skipSpace_suffix rest).trans hrest
          rw [hskip] at hend
          exact (List.suffix_cons c after).trans hend
        dsimp only
        split
        · exact (ih hafter).map fun as bs has => .cons h has
        · split
          · exact .some (.cons h .nil) hafter
          · exact .none

theorem readArray_follows (hitem : ∀ {cs}, cs <:+ whole → Follows whole R (cell cs) (cell' cs)) (fuel : Nat)
    (hcs : cs <:+ whole) : Follows whole (List.Forall₂ R) (readArray cell fuel cs) (readArray cell' fuel cs) := by
  have hskip := (skipSpace_suffix cs).trans hcs
  unfold readArray
  split
  · rename_i rest heq
    rw [heq] at hskip
    exact .some .nil ((List.suffix_cons _ _).trans hskip)
  · rw [readItems_eq_readCells, readItems_eq_readCells]
    exact readCells_follows hitem fuel hskip

end

/-! ## Ends -/

variable {cs rest : List Char}

theorem suffix_of_readPieces {ps : List Piece} (h : readPieces cs = some (ps, rest)) : rest <:+ cs := by
  fun_induction readPieces cs generalizing ps with
  | case1 => cases h
  | case2 rest' =>
    cases h
    exact List.suffix_cons _ _
  | case3 => cases h
  | case4 a b c d rest' n hn ih =>
    obtain ⟨⟨ps', after⟩, hps, heq⟩ := Option.map_eq_some_iff.mp h
    cases heq
    exact (ih hps).trans (List.suffix_append ['\\', 'u', a, b, c, d] rest')
  | case5 => cases h
  | case6 c rest' _ d hd ih =>
    obtain ⟨⟨ps', after⟩, hps, heq⟩ := Option.map_eq_some_iff.mp h
    cases heq
    exact (ih hps).trans (List.suffix_append ['\\', c] rest')
  | case7 => cases h
  | case8 c rest' _ _ _ _ ih =>
    obtain ⟨⟨ps', after⟩, hps, heq⟩ := Option.map_eq_some_iff.mp h
    cases heq
    exact (ih hps).trans (List.suffix_cons c rest')

theorem suffix_of_readString {s : String} (h : readString cs = some (s, rest)) : rest <:+ cs := by
  obtain ⟨⟨ps, after⟩, hps, heq⟩ := Option.map_eq_some_iff.mp h
  cases heq
  exact suffix_of_readPieces hps

theorem suffix_of_readDigits {ds : List Char} (h : readDigits cs = some (ds, rest)) : rest <:+ cs := by
  unfold readDigits at h
  split at h
  · cases h
  · cases h
    exact List.dropWhile_suffix _

theorem suffix_of_readWhole {ds : List Char} (h : readWhole cs = some (ds, rest)) : rest <:+ cs := by
  unfold readWhole at h
  split at h
  · cases h
    exact List.suffix_cons _ _
  · exact suffix_of_readDigits h

theorem suffix_of_readFraction {ds : List Char} (h : readFraction cs = some (ds, rest)) : rest <:+ cs := by
  unfold readFraction at h
  split at h
  · obtain ⟨⟨ds', after⟩, hds, heq⟩ := Option.map_eq_some_iff.mp h
    cases heq
    exact (suffix_of_readDigits hds).trans (List.suffix_cons _ _)
  · cases h
    exact List.suffix_refl _

theorem suffix_of_readExponent {ds : List Char} (h : readExponent cs = some (ds, rest)) : rest <:+ cs := by
  unfold readExponent at h
  split at h
  · rename_i e cs
    split at h
    · -- The digits stand behind the mark, or behind the mark and a sign.
      split at h
      all_goals
        obtain ⟨⟨ds', after⟩, hds, heq⟩ := Option.map_eq_some_iff.mp h
        cases heq
      · exact (suffix_of_readDigits hds).trans (List.suffix_append [e, '+'] _)
      · exact (suffix_of_readDigits hds).trans (List.suffix_append [e, '-'] _)
      · exact (suffix_of_readDigits hds).trans (List.suffix_cons e _)
    · cases h
      exact List.suffix_refl _
  · cases h
    exact List.suffix_refl _

theorem suffix_of_readMagnitude {ds : List Char} (h : readMagnitude cs = some (ds, rest)) : rest <:+ cs := by
  rw [readMagnitude] at h
  obtain ⟨⟨whole, cs₁⟩, hwhole, h⟩ := Option.bind_eq_some_iff.mp h
  obtain ⟨⟨fraction, cs₂⟩, hfraction, h⟩ := Option.bind_eq_some_iff.mp h
  obtain ⟨⟨exponent, cs₃⟩, hexponent, h⟩ := Option.bind_eq_some_iff.mp h
  cases h
  have hend : rest <:+ cs₁ := (suffix_of_readExponent hexponent).trans (suffix_of_readFraction hfraction)
  exact hend.trans (suffix_of_readWhole hwhole)

theorem suffix_of_readNumber {literal : String} (h : readNumber cs = some (literal, rest)) : rest <:+ cs := by
  unfold readNumber at h
  split at h
  all_goals
    obtain ⟨⟨ds, after⟩, hds, heq⟩ := Option.map_eq_some_iff.mp h
    cases heq
  · exact (suffix_of_readMagnitude hds).trans (List.suffix_cons _ _)
  · exact suffix_of_readMagnitude hds

theorem suffix_of_readScalar {v : Json} (h : readScalar cs = some (v, rest)) : rest <:+ cs := by
  unfold readScalar at h
  split at h
  · cases h
    exact List.suffix_append ['n', 'u', 'l', 'l'] _
  · cases h
    exact List.suffix_append ['t', 'r', 'u', 'e'] _
  · cases h
    exact List.suffix_append ['f', 'a', 'l', 's', 'e'] _
  · obtain ⟨⟨s, after⟩, hs, heq⟩ := Option.map_eq_some_iff.mp h
    cases heq
    exact (suffix_of_readString hs).trans (List.suffix_cons _ _)
  · obtain ⟨⟨literal, after⟩, hliteral, heq⟩ := Option.map_eq_some_iff.mp h
    cases heq
    exact suffix_of_readNumber hliteral

section

variable {α β : Type} {whole : List Char} {R : α → β → Prop} {item : Read α} {item' : Read β}

theorem readMember_follows (hitem : ∀ {cs}, cs <:+ whole → Follows whole R (item cs) (item' cs))
    (hcs : cs <:+ whole) :
    Follows whole (fun m m' => m.1 = m'.1 ∧ R m.2 m'.2) (readMember item cs) (readMember item' cs) := by
  unfold readMember
  split
  · rename_i text
    cases hkey : readString text with
    | none => exact .none
    | some p =>
      obtain ⟨key, after⟩ := p
      have hafter : after <:+ whole :=
        ((suffix_of_readString hkey).trans (List.suffix_cons _ _)).trans hcs
      have hskip := (skipSpace_suffix after).trans hafter
      dsimp only
      split
      · rename_i value heq
        rw [heq] at hskip
        have hvalue := (skipSpace_suffix value).trans ((List.suffix_cons _ _).trans hskip)
        exact (hitem hvalue).map fun a b hab => ⟨rfl, hab⟩
      · exact .none
  · exact .none

theorem readObject_follows (hitem : ∀ {cs}, cs <:+ whole → Follows whole R (item cs) (item' cs)) (fuel : Nat)
    (hcs : cs <:+ whole) :
    Follows whole (List.Forall₂ fun m m' => m.1 = m'.1 ∧ R m.2 m'.2) (readObject item fuel cs)
      (readObject item' fuel cs) := by
  have hskip := (skipSpace_suffix cs).trans hcs
  unfold readObject
  split
  · rename_i rest heq
    rw [heq] at hskip
    exact .some .nil ((List.suffix_cons _ _).trans hskip)
  · rw [readMembers_eq_readCells, readMembers_eq_readCells]
    exact readCells_follows (readMember_follows hitem) fuel hskip

end

theorem readValue_of_readScalar {p : Json × List Char} (h : readScalar cs = some p) (fuel depth : Nat) :
    readValue fuel depth cs = some p := by
  cases depth with
  | zero => exact h
  | succ depth =>
    unfold readValue
    split
    · exact h
    · cases h
    · cases h
    · exact h

theorem readScalar_follows {whole : List Char} (fuel depth : Nat) (hcs : cs <:+ whole) :
    Follows whole (fun _ _ => True) (readScalar cs) (readValue fuel depth cs) := by
  cases hread : readScalar cs with
  | none => exact .none
  | some p =>
    rw [readValue_of_readScalar hread]
    exact .some trivial ((suffix_of_readScalar hread).trans hcs)

/-- A value that can be read is also read when more levels are left, and what is left is an end of the text. -/
theorem readValue_follows {whole : List Char} (fuel : Nat) {depth depth' : Nat} (hdepth : depth ≤ depth')
    (hcs : cs <:+ whole) :
    Follows whole (fun _ _ => True) (readValue fuel depth cs) (readValue fuel depth' cs) := by
  induction depth generalizing depth' cs with
  | zero => exact readScalar_follows fuel depth' hcs
  | succ depth ih =>
    obtain ⟨depth', rfl⟩ := Nat.exists_eq_add_one_of_ne_zero (show depth' ≠ 0 by omega)
    have hitem : ∀ {cs}, cs <:+ whole → Follows whole (fun _ _ => True) (readValue fuel depth cs)
        (readValue fuel depth' cs) := ih (by omega)
    cases cs with
    | nil => exact readScalar_follows fuel (depth' + 1) hcs
    | cons c rest =>
      have hrest := (List.suffix_cons c rest).trans hcs
      by_cases harray : c = '['
      · subst harray
        apply (readArray_follows hitem fuel hrest).map
        exact fun _ _ _ => trivial
      by_cases hobject : c = '\x7b'
      · subst hobject
        have hmembers := readObject_follows hitem fuel hrest
        exact hmembers.map (f := fun ms => object (Assoc.ofList ms)) (g := fun ms => object (Assoc.ofList ms))
          fun _ _ _ => trivial
      rw [readValue_scalar harray hobject fuel (depth + 1)]
      exact readScalar_follows fuel (depth' + 1) hcs

theorem suffix_of_readValue {fuel depth : Nat} {v : Json} (h : readValue fuel depth cs = some (v, rest)) :
    rest <:+ cs := by
  have hself := readValue_follows fuel (Nat.le_refl depth) (List.suffix_refl cs)
  rw [h] at hself
  obtain ⟨_, -, -, hend⟩ := hself.exists_some
  exact hend

/-! ## Spans -/

/-- A piece of a text has so many characters, and so many stand behind it. -/
def Spans (whole piece : List Char) (span : Nat × Nat) : Prop :=
  ∃ before after, whole = before ++ (piece ++ after) ∧ span = (piece.length, after.length)

-- The span that is told is that of the text that is taken.
theorem readSpan_follows {whole : List Char} (fuel depth : Nat) (hcs : cs <:+ whole) :
    Follows whole (fun span raw => Spans whole raw span) (readSpan fuel depth cs) (readRaw fuel depth cs) := by
  unfold readSpan readRaw
  cases hread : readValue fuel depth cs with
  | none => exact .none
  | some p =>
    obtain ⟨v, rest⟩ := p
    have hrest := suffix_of_readValue hread
    obtain ⟨piece, rfl⟩ := hrest
    obtain ⟨before, rfl⟩ := hcs
    have htake : (piece ++ rest).take ((piece ++ rest).length - rest.length) = piece := by simp
    dsimp only [Option.map_some]
    rw [htake]
    exact .some ⟨before, rest, rfl, rfl⟩ ⟨before ++ piece, List.append_assoc _ _ _⟩

-- With at least as many levels left, a value that can be read has a span.
theorem span_follows_readValue {whole : List Char} (fuel : Nat) {depth depth' : Nat} (hdepth : depth ≤ depth')
    (hcs : cs <:+ whole) :
    Follows whole (fun _ _ => True) (readValue fuel depth cs) (readSpan fuel depth' cs) := by
  have hdeeper := readValue_follows fuel hdepth hcs
  unfold readSpan readRaw
  generalize readValue fuel depth cs = o at hdeeper ⊢
  generalize readValue fuel depth' cs = o' at hdeeper ⊢
  cases hdeeper with
  | none => exact .none
  | some _ hrest => exact .some trivial hrest

theorem map_part {α : Type} {f : α → Char} {xs : List α} {piece : List Char} {span : Nat × Nat}
    (h : Spans (xs.map f) piece span) : (part xs span).map f = piece := by
  obtain ⟨before, after, heq, rfl⟩ := h
  rw [part, List.map_take, List.map_drop, ← List.length_map f, heq]
  simp

theorem part_infix {α : Type} (xs : List α) (span : Nat × Nat) : part xs span <:+: xs :=
  (List.take_prefix _ _).isInfix.trans (List.drop_suffix _ _).isInfix

end SolidityAst.Json
