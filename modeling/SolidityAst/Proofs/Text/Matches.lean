import Mathlib.Data.List.Basic
import SolidityAst.Text.Matches

/-!
The matches of a pattern, said by what a match is.

`Cuts` takes a text apart from its start: where a match stands it is taken as a whole, and where none does one
character is passed.  It leaves no choice, and searching and erasing compute it.  No match is found across the
border of two texts as long as the pattern never looks past it.
-/
namespace SolidityAst.Text

variable {α : Type}

/-- What a match is: its characters, what they mean, and what follows them. -/
abbrev Form (α : Type) := List Char → α → List Char → Prop

/-- No match stands at the start of a text. -/
def Form.Absent (F : Form α) (cs : List Char) : Prop :=
  ∀ lexeme a rest, cs = lexeme ++ rest → ¬ F lexeme a rest

/-- The matches of a text, leftmost first and without overlap, and the characters between them. -/
inductive Cuts (F : Form α) : List Char → List α → List Char → Prop
  | nil : Cuts F [] [] []
  | found {lexeme rest left : List Char} {a : α} {found : List α} :
      F lexeme a rest → Cuts F rest found left → Cuts F (lexeme ++ rest) (a :: found) left
  | passed {c : Char} {rest left : List Char} {found : List α} :
      F.Absent (c :: rest) → Cuts F rest found left → Cuts F (c :: rest) found (c :: left)

namespace Pattern

/-- The pattern finds the matches of a form, each with its length, and nothing else. -/
structure Finds (p : Pattern α) (F : Form α) : Prop where
  nonempty : ∀ {lexeme a rest}, F lexeme a rest → lexeme ≠ []
  sound : ∀ {cs a n}, p cs = some (a, n) →
    ∃ lexeme rest, cs = lexeme ++ rest ∧ F lexeme a rest ∧ n = lexeme.length
  complete : ∀ {lexeme a rest}, F lexeme a rest → p (lexeme ++ rest) = some (a, lexeme.length)

/-! ## One step of a search -/

theorem matchesAfter_eq_drop (p : Pattern α) (skip : Nat) (cs : List Char) :
    matchesAfter p skip cs = matchesIn p (cs.drop skip) := by
  induction cs generalizing skip with
  | nil => rw [List.drop_nil, matchesIn, matchesAfter, matchesAfter]
  | cons c cs ih =>
    cases skip with
    | zero => rfl
    | succ skip => exact ih skip

theorem eraseAfter_eq_drop (p : Pattern α) (skip : Nat) (cs : List Char) :
    eraseAfter p skip cs = eraseFrom p (cs.drop skip) := by
  induction cs generalizing skip with
  | nil => rw [List.drop_nil, eraseFrom, eraseAfter, eraseAfter]
  | cons c cs ih =>
    cases skip with
    | zero => rfl
    | succ skip => exact ih skip

section

variable {p : Pattern α} {F : Form α}

theorem matchesIn_passed {c : Char} {cs : List Char} (h : p (c :: cs) = none) :
    matchesIn p (c :: cs) = matchesIn p cs := by
  rw [matchesIn, matchesAfter, h]
  rfl

theorem eraseFrom_passed {c : Char} {cs : List Char} (h : p (c :: cs) = none) :
    eraseFrom p (c :: cs) = c :: eraseFrom p cs := by
  rw [eraseFrom, eraseAfter, h]
  rfl

theorem firstIn?_passed {c : Char} {cs : List Char} (h : p (c :: cs) = none) :
    firstIn? p (c :: cs) = firstIn? p cs := by
  rw [firstIn?, h]

namespace Finds

-- The search goes on behind a match, since the first character of the match is skipped with the others.
theorem matchesIn_found (hp : p.Finds F) {lexeme rest : List Char} {a : α} (h : F lexeme a rest) :
    matchesIn p (lexeme ++ rest) = a :: matchesIn p rest := by
  have hfound := hp.complete h
  obtain ⟨c, cs, rfl⟩ := List.exists_cons_of_ne_nil (hp.nonempty h)
  rw [List.cons_append] at hfound ⊢
  rw [matchesIn, matchesAfter, hfound]
  show a :: matchesAfter p ((c :: cs).length - 1) (cs ++ rest) = _
  rw [List.length_cons, Nat.add_sub_cancel, matchesAfter_eq_drop, List.drop_left]

theorem eraseFrom_found (hp : p.Finds F) {lexeme rest : List Char} {a : α} (h : F lexeme a rest) :
    eraseFrom p (lexeme ++ rest) = eraseFrom p rest := by
  have hfound := hp.complete h
  obtain ⟨c, cs, rfl⟩ := List.exists_cons_of_ne_nil (hp.nonempty h)
  rw [List.cons_append] at hfound ⊢
  rw [eraseFrom, eraseAfter, hfound]
  show eraseAfter p ((c :: cs).length - 1) (cs ++ rest) = _
  rw [List.length_cons, Nat.add_sub_cancel, eraseAfter_eq_drop, List.drop_left]

theorem firstIn?_found (hp : p.Finds F) {lexeme rest : List Char} {a : α} (h : F lexeme a rest) :
    firstIn? p (lexeme ++ rest) = some a := by
  have hfound := hp.complete h
  obtain ⟨c, cs, rfl⟩ := List.exists_cons_of_ne_nil (hp.nonempty h)
  rw [List.cons_append] at hfound ⊢
  rw [firstIn?, hfound]

theorem eq_none_iff (hp : p.Finds F) {cs : List Char} : p cs = none ↔ F.Absent cs := by
  constructor
  · intro hnone lexeme a rest hcs hmatch
    rw [hcs, hp.complete hmatch] at hnone
    cases hnone
  · intro habsent
    cases hcs : p cs with
    | none => rfl
    | some found =>
      obtain ⟨lexeme, rest, heq, hmatch, -⟩ := hp.sound hcs
      exact absurd hmatch (habsent lexeme found.1 rest heq)

theorem length_le (hp : p.Finds F) {cs : List Char} {a : α} {n : Nat} (h : p cs = some (a, n)) :
    n ≤ cs.length := by
  obtain ⟨lexeme, rest, rfl, -, rfl⟩ := hp.sound h
  rw [List.length_append]
  omega

/-! ## Whole texts -/

theorem cuts (hp : p.Finds F) (cs : List Char) : Cuts F cs (matchesIn p cs) (eraseFrom p cs) := by
  -- A match takes several characters at once, so the induction is on the length of the text.
  induction hlength : cs.length using Nat.strongRecOn generalizing cs with
  | ind n ih =>
    cases cs with
    | nil => exact .nil
    | cons c cs =>
      cases hfirst : p (c :: cs) with
      | none =>
        rw [matchesIn_passed hfirst, eraseFrom_passed hfirst]
        apply Cuts.passed (hp.eq_none_iff.mp hfirst)
        exact ih cs.length (by rw [← hlength, List.length_cons]; omega) cs rfl
      | some found =>
        obtain ⟨lexeme, rest, heq, hmatch, -⟩ := hp.sound hfirst
        have hpos := List.length_pos_iff.mpr (hp.nonempty hmatch)
        rw [heq] at hlength ⊢
        rw [hp.matchesIn_found hmatch, hp.eraseFrom_found hmatch]
        apply Cuts.found hmatch
        exact ih rest.length (by rw [← hlength, List.length_append]; omega) rest rfl

/-- A text can be taken apart in one way, and searching and erasing do so. -/
theorem cuts_iff (hp : p.Finds F) {cs left : List Char} {found : List α} :
    Cuts F cs found left ↔ matchesIn p cs = found ∧ eraseFrom p cs = left := by
  constructor
  · intro h
    induction h with
    | nil => exact ⟨rfl, rfl⟩
    | found hmatch _ ih => rw [hp.matchesIn_found hmatch, hp.eraseFrom_found hmatch, ih.1, ih.2]; simp
    | passed habsent _ ih =>
      have hnone := hp.eq_none_iff.mpr habsent
      rw [matchesIn_passed hnone, eraseFrom_passed hnone, ih.1, ih.2]
      simp
  · intro h
    rw [← h.1, ← h.2]
    exact hp.cuts cs

theorem matchesIn_eq_nil_iff (hp : p.Finds F) {cs : List Char} :
    matchesIn p cs = [] ↔ ∀ before after, cs = before ++ after → after ≠ [] → F.Absent after := by
  induction cs with
  | nil =>
    refine ⟨fun _ before after hcs hafter => ?_, fun _ => rfl⟩
    exact absurd (List.append_eq_nil_iff.mp hcs.symm).2 hafter
  | cons c cs ih =>
    constructor
    · intro hnil before after hcs hafter
      cases hfirst : p (c :: cs) with
      | some found =>
        obtain ⟨lexeme, rest, heq, hmatch, -⟩ := hp.sound hfirst
        rw [heq, hp.matchesIn_found hmatch] at hnil
        cases hnil
      | none =>
        cases before with
        | nil =>
          rw [← hp.eq_none_iff, ← hcs.trans (List.nil_append after)]
          exact hfirst
        | cons d before =>
          rw [matchesIn_passed hfirst] at hnil
          exact ih.mp hnil before after (List.cons.inj hcs).2 hafter
    · intro habsent
      have hfirst : p (c :: cs) = none :=
        hp.eq_none_iff.mpr (habsent [] (c :: cs) rfl (List.cons_ne_nil c cs))
      rw [matchesIn_passed hfirst]
      apply ih.mpr
      intro before after hcs hafter
      exact habsent (c :: before) after (by rw [hcs, List.cons_append]) hafter

end Finds

/-! ## The border of two texts -/

-- `skip` stays within the first text, so that the search enters the second one at its start.
theorem matchesAfter_append {cs ds : List Char}
    (hlocal : ∀ s, s <:+ cs → s ≠ [] → p (s ++ ds) = p s)
    (hlength : ∀ s a n, p s = some (a, n) → n ≤ s.length) {skip : Nat} (hskip : skip ≤ cs.length) :
    matchesAfter p skip (cs ++ ds) = matchesAfter p skip cs ++ matchesIn p ds := by
  induction cs generalizing skip with
  | nil =>
    obtain rfl : skip = 0 := by simpa using hskip
    rfl
  | cons c cs ih =>
    have hlocal' : ∀ s, s <:+ cs → s ≠ [] → p (s ++ ds) = p s := by
      intro s hs
      exact hlocal s (hs.trans (List.suffix_cons c cs))
    rw [List.length_cons] at hskip
    cases skip with
    | succ skip => exact ih hlocal' (by omega)
    | zero =>
      have hfirst := hlocal (c :: cs) (List.suffix_refl _) (List.cons_ne_nil c cs)
      rw [List.cons_append] at hfirst ⊢
      rw [matchesAfter, matchesAfter, hfirst]
      cases hfound : p (c :: cs) with
      | none => exact ih hlocal' (Nat.zero_le _)
      | some found =>
        have hn := hlength _ _ _ hfound
        rw [List.length_cons] at hn
        show found.1 :: _ = found.1 :: _ ++ _
        rw [ih hlocal' (by omega), List.cons_append]

/-- A pattern that never looks past the end of the first text finds in both what it finds in each. -/
theorem matchesIn_append {cs ds : List Char} (hlocal : ∀ s, s <:+ cs → s ≠ [] → p (s ++ ds) = p s)
    (hlength : ∀ s a n, p s = some (a, n) → n ≤ s.length) :
    matchesIn p (cs ++ ds) = matchesIn p cs ++ matchesIn p ds :=
  matchesAfter_append hlocal hlength (Nat.zero_le _)

end

end Pattern

end SolidityAst.Text
