import Mathlib.Data.List.TakeWhile
import SolidityAst.Proofs.Solc.Release
import SolidityAst.Proofs.Text.Matches

/-!
The grammar of pragma directives: version literals, upper bounds and the directives themselves.

Each pattern finds exactly the texts of its form.  A literal or a bound is as long as it can be, so what follows
it has a part in the form; a directive ends with its first semicolon, whatever follows.
-/
namespace SolidityAst.Solc

open Text

theorem IsNumeral.isDigit {cs : List Char} (h : IsNumeral cs) : ∀ c ∈ cs, isDigit c = true :=
  List.all_eq_true.mp h.2

theorem IsNumeral.notMem {cs : List Char} (h : IsNumeral cs) {c : Char} (hc : Text.isDigit c = false) :
    c ∉ cs := by
  intro hmem
  rw [h.isDigit c hmem] at hc
  cases hc

theorem IsNumeral.exists_cons {cs : List Char} (h : IsNumeral cs) : ∃ d ds, cs = d :: ds :=
  List.exists_cons_of_ne_nil h.1

namespace Pragma

/-! ## Runs of characters -/

/-- No further character of a run comes next. -/
def RunOver (p : Char → Bool) (rest : List Char) : Prop := ∀ c ∈ rest.head?, p c = false

section

variable {p : Char → Bool} {run rest : List Char}

theorem runOver_cons {c : Char} (h : p c = false) (rest : List Char) : RunOver p (c :: rest) := by
  intro d hd
  cases hd
  exact h

theorem runOver_dropWhile (p : Char → Bool) (cs : List Char) : RunOver p (cs.dropWhile p) := by
  intro c hc
  have h := List.head?_dropWhile_not p cs
  rw [Option.mem_def.mp hc] at h
  exact h

theorem RunOver.of_append (h : RunOver p (run ++ rest)) : RunOver p run := by
  intro c hc
  apply h c
  rw [List.head?_append, Option.mem_def.mp hc]
  rfl

theorem RunOver.takeWhile_eq_nil (h : RunOver p rest) : rest.takeWhile p = [] := by
  cases rest with
  | nil => rfl
  | cons c rest => rw [List.takeWhile_cons_of_neg (by rw [h c rfl]; decide)]

theorem RunOver.dropWhile_eq_self (h : RunOver p rest) : rest.dropWhile p = rest := by
  cases rest with
  | nil => rfl
  | cons c rest => rw [List.dropWhile_cons_of_neg (by rw [h c rfl]; decide)]

theorem takeWhile_run (hrun : ∀ c ∈ run, p c = true) (hrest : RunOver p rest) :
    (run ++ rest).takeWhile p = run := by
  rw [List.takeWhile_append_of_pos hrun, hrest.takeWhile_eq_nil, List.append_nil]

theorem dropWhile_run (hrun : ∀ c ∈ run, p c = true) (hrest : RunOver p rest) :
    (run ++ rest).dropWhile p = rest := by
  rw [List.dropWhile_append_of_pos hrun, hrest.dropWhile_eq_self]

theorem runOver_of_takeWhile_eq_nil (h : rest.takeWhile p = []) : RunOver p rest := by
  have hdrop := runOver_dropWhile p rest
  have hsame : rest.takeWhile p ++ rest.dropWhile p = rest := List.takeWhile_append_dropWhile
  rw [h, List.nil_append] at hsame
  rwa [hsame] at hdrop

end

/-! ## Literals -/

/-- A literal as it is written. -/
def Literal.chars (l : Literal) : List Char :=
  l.major ++ '.' :: (l.minor ++ (l.patch.map ('.' :: ·)).getD [])

/-- A literal ends where no further digit comes, and one without a patch number where none could start. -/
def Literal.form : Form Literal := fun lexeme l rest =>
  l.IsNumeric ∧ lexeme = l.chars ∧ RunOver isDigit rest ∧
    (l.patch = none → ∀ after, rest = '.' :: after → RunOver isDigit after)

theorem sound_literal {cs : List Char} {l : Literal} {n : Nat} (h : literal cs = some (l, n)) :
    ∃ lexeme rest, cs = lexeme ++ rest ∧ Literal.form lexeme l rest ∧ n = lexeme.length := by
  have hnumeric := isNumeric_of_literal cs l n h
  have hcs : cs.takeWhile isDigit ++ cs.dropWhile isDigit = cs := List.takeWhile_append_dropWhile
  unfold literal at h
  dsimp only at h
  split at h
  case h_2 => cases h
  case h_1 afterMajor hmajor hpoint =>
    have hafter : afterMajor.takeWhile isDigit ++ afterMajor.dropWhile isDigit = afterMajor :=
      List.takeWhile_append_dropWhile
    rw [hpoint] at hcs
    split at h
    case h_1 => cases h
    case h_2 afterMinor hminor hsecond =>
      rw [hsecond] at hafter
      split at h
      next hpatch =>
        -- The second point belongs to nothing, because no digit stands behind it.
        cases h
        refine ⟨_, '.' :: afterMinor, ?_, ⟨hnumeric, rfl, runOver_cons (by decide) _, ?_⟩, ?_⟩
        · simp [Literal.chars, hafter, hcs]
        · intro _ after heq
          cases heq
          exact runOver_of_takeWhile_eq_nil (by simpa using hpatch)
        · simp [Literal.chars]
          omega
      next hpatch =>
        cases h
        refine ⟨_, afterMinor.dropWhile isDigit, ?_, ⟨hnumeric, rfl, runOver_dropWhile _ _, ?_⟩, ?_⟩
        · simp [Literal.chars, hafter, hcs]
        · intro hnone
          cases hnone
        · simp [Literal.chars]
          omega
    case h_3 hminor hsecond =>
      cases h
      refine ⟨_, afterMajor.dropWhile isDigit, ?_, ⟨hnumeric, rfl, runOver_dropWhile _ _, ?_⟩, ?_⟩
      · simp [Literal.chars, hcs]
      · intro _ after heq
        exact absurd heq (hsecond after)
      · simp [Literal.chars]
        omega

theorem complete_literal {lexeme rest : List Char} {l : Literal} (h : Literal.form lexeme l rest) :
    literal (lexeme ++ rest) = some (l, lexeme.length) := by
  obtain ⟨⟨hmajor, hminor, hpatch⟩, rfl, hrest, hend⟩ := h
  obtain ⟨major, minor, patch⟩ := l
  dsimp only at hmajor hminor hpatch hend
  have hpoint : ∀ cs, RunOver isDigit ('.' :: cs) := fun cs => runOver_cons (by decide) cs
  obtain ⟨m, ms, rfl⟩ := hmajor.exists_cons
  obtain ⟨d, ds, rfl⟩ := hminor.exists_cons
  cases patch with
  | none =>
    have htext : Literal.chars ⟨m :: ms, d :: ds, none⟩ ++ rest = (m :: ms) ++ '.' :: ((d :: ds) ++ rest) := by
      simp [Literal.chars]
    rw [htext]
    simp only [literal, takeWhile_run hmajor.isDigit (hpoint _), dropWhile_run hmajor.isDigit (hpoint _),
      takeWhile_run hminor.isDigit hrest, dropWhile_run hminor.isDigit hrest]
    have hlength : (Literal.chars ⟨m :: ms, d :: ds, none⟩).length = (m :: ms).length + 1 + (d :: ds).length := by
      simp [Literal.chars]
      omega
    rw [hlength]
    cases rest with
    | nil => rfl
    | cons c rest =>
      by_cases hc : c = '.'
      · subst hc
        simp only [(hend rfl rest rfl).takeWhile_eq_nil, List.isEmpty_nil, if_true]
      · simp [hc]
  | some patch =>
    have hdigits := hpatch patch rfl
    obtain ⟨e, es, rfl⟩ := hdigits.exists_cons
    have htext : Literal.chars ⟨m :: ms, d :: ds, some (e :: es)⟩ ++ rest =
        (m :: ms) ++ '.' :: ((d :: ds) ++ '.' :: ((e :: es) ++ rest)) := by
      simp [Literal.chars]
    rw [htext]
    simp only [literal, takeWhile_run hmajor.isDigit (hpoint _), dropWhile_run hmajor.isDigit (hpoint _),
      takeWhile_run hminor.isDigit (hpoint _), dropWhile_run hminor.isDigit (hpoint _),
      takeWhile_run hdigits.isDigit hrest]
    have hlength : (Literal.chars ⟨m :: ms, d :: ds, some (e :: es)⟩).length =
        (m :: ms).length + 1 + (d :: ds).length + 1 + (e :: es).length := by
      simp [Literal.chars]
      omega
    rw [hlength]
    rfl

theorem finds_literal : literal.Finds Literal.form where
  nonempty h := by
    obtain ⟨-, rfl, -⟩ := h
    simp [Literal.chars]
  sound := sound_literal
  complete := complete_literal

/-! ## Upper bounds -/

/-- Blanks of a directive. -/
def Blanks (cs : List Char) : Prop := ∀ c ∈ cs, isAsciiBlank c = true

theorem Blanks.notMem {cs : List Char} (h : Blanks cs) {c : Char} (hc : isAsciiBlank c = false) : c ∉ cs := by
  intro hmem
  rw [h c hmem] at hc
  cases hc

/-- The sign of an upper bound, blanks, and a literal. -/
def UpperBound.form : Form UpperBound := fun lexeme u rest =>
  ∃ blanks digits, Blanks blanks ∧ Literal.form digits u.bound rest ∧
    lexeme = (if u.inclusive then ['<', '='] else ['<']) ++ (blanks ++ digits)

-- A literal starts with a digit, so the blanks before it end there.
theorem Literal.form.runOver_blank {lexeme rest : List Char} {l : Literal} (h : Literal.form lexeme l rest)
    (after : List Char) : RunOver isAsciiBlank (lexeme ++ after) := by
  obtain ⟨hnumeric, rfl, -⟩ := h
  obtain ⟨d, ds, hmajor⟩ := hnumeric.major.exists_cons
  have hdigit := hnumeric.major.isDigit d (by rw [hmajor]; exact List.mem_cons_self)
  rw [Literal.chars, hmajor]
  apply runOver_cons
  simp only [isAsciiBlank, Bool.or_eq_false_iff, beq_eq_false_iff_ne]
  refine ⟨⟨⟨⟨?_, ?_⟩, ?_⟩, ?_⟩, ?_⟩ <;>
    · rintro rfl
      cases hdigit

theorem literalAfterBlanks_eq_some {cs : List Char} {l : Literal} {n : Nat} :
    literalAfterBlanks cs = some (l, n) ↔ ∃ blanks digits rest, Blanks blanks ∧ Literal.form digits l rest ∧
      cs = blanks ++ (digits ++ rest) ∧ n = blanks.length + digits.length := by
  constructor
  · intro h
    obtain ⟨⟨l', k⟩, hl, heq⟩ := Option.map_eq_some_iff.mp h
    cases heq
    obtain ⟨digits, rest, hdrop, hform, rfl⟩ := sound_literal hl
    refine ⟨cs.takeWhile isAsciiBlank, digits, rest, fun c hc => List.mem_takeWhile_imp hc, hform, ?_, rfl⟩
    rw [← hdrop]
    exact List.takeWhile_append_dropWhile.symm
  · intro h
    obtain ⟨blanks, digits, rest, hblanks, hform, rfl, rfl⟩ := h
    have hrest := hform.runOver_blank rest
    unfold literalAfterBlanks
    rw [dropWhile_run hblanks hrest, takeWhile_run hblanks hrest, complete_literal hform]
    rfl

theorem sound_upperBound {cs : List Char} {u : UpperBound} {n : Nat} (h : upperBound cs = some (u, n)) :
    ∃ lexeme rest, cs = lexeme ++ rest ∧ UpperBound.form lexeme u rest ∧ n = lexeme.length := by
  unfold upperBound at h
  split at h
  case h_3 => cases h
  case h_1 cs =>
    obtain ⟨⟨l, k⟩, hl, heq⟩ := Option.map_eq_some_iff.mp h
    cases heq
    obtain ⟨blanks, digits, rest, hblanks, hform, rfl, rfl⟩ := literalAfterBlanks_eq_some.mp hl
    refine ⟨['<', '='] ++ (blanks ++ digits), rest, by simp, ⟨blanks, digits, hblanks, hform, rfl⟩, ?_⟩
    simp
  case h_2 cs _ =>
    obtain ⟨⟨l, k⟩, hl, heq⟩ := Option.map_eq_some_iff.mp h
    cases heq
    obtain ⟨blanks, digits, rest, hblanks, hform, rfl, rfl⟩ := literalAfterBlanks_eq_some.mp hl
    refine ⟨['<'] ++ (blanks ++ digits), rest, by simp, ⟨blanks, digits, hblanks, hform, rfl⟩, ?_⟩
    simp

theorem complete_upperBound {lexeme rest : List Char} {u : UpperBound} (h : UpperBound.form lexeme u rest) :
    upperBound (lexeme ++ rest) = some (u, lexeme.length) := by
  obtain ⟨blanks, digits, hblanks, hform, rfl⟩ := h
  have hfound : literalAfterBlanks (blanks ++ (digits ++ rest)) =
      some (u.bound, blanks.length + digits.length) :=
    literalAfterBlanks_eq_some.mpr ⟨blanks, digits, rest, hblanks, hform, rfl, rfl⟩
  obtain ⟨inclusive, bound⟩ := u
  cases inclusive with
  | true =>
    show upperBound ('<' :: '=' :: (blanks ++ digits ++ rest)) = _
    rw [upperBound, List.append_assoc, hfound]
    simp
  | false =>
    -- Neither a blank nor a digit is the `=` that would make the bound inclusive.
    have hequals : ∀ after, blanks ++ (digits ++ rest) ≠ '=' :: after := by
      intro after heq
      cases blanks with
      | cons c blanks =>
        cases heq
        cases hblanks '=' List.mem_cons_self
      | nil =>
        obtain ⟨hnumeric, rfl, -⟩ := hform
        obtain ⟨d, ds, hmajor⟩ := hnumeric.major.exists_cons
        have hdigit := hnumeric.major.isDigit d (by rw [hmajor]; exact List.mem_cons_self)
        rw [Literal.chars, hmajor] at heq
        cases heq
        cases hdigit
    show upperBound ('<' :: (blanks ++ digits ++ rest)) = _
    rw [List.append_assoc, upperBound, hfound]
    · simp
    · intro after heq
      exact hequals after heq

theorem finds_upperBound : upperBound.Finds UpperBound.form where
  nonempty h := by
    obtain ⟨blanks, digits, -, -, rfl⟩ := h
    split <;> simp
  sound := sound_upperBound
  complete := complete_upperBound

/-! ## Directives -/

/-- `pragma`, blanks, `solidity`, blanks, a constraint and a semicolon.  The blanks before the constraint are as
many as they can be, only one of them is left to stand for a constraint where there is nothing else. -/
def directiveForm : Form (List Char) := fun lexeme body _ =>
  ∃ gap blanks, gap ≠ [] ∧ Blanks gap ∧ blanks ≠ [] ∧ Blanks blanks ∧ ';' ∉ body ∧
    RunOver isAsciiBlank body ∧ (body = [] → 2 ≤ blanks.length) ∧
    lexeme = "pragma".toList ++ (gap ++ ("solidity".toList ++ (blanks ++ (body ++ [';']))))

theorem runOver_semicolon {body : List Char} (h : RunOver isAsciiBlank body) (rest : List Char) :
    RunOver isAsciiBlank (body ++ ';' :: rest) := by
  cases body with
  | nil => exact runOver_cons (by decide) rest
  | cons c body => exact runOver_cons (h c rfl) _

-- What stands before the first semicolon of a text.
theorem eq_takeWhile_semicolon {cs rest : List Char} {c : Char} (h : cs.dropWhile (· != ';') = c :: rest) :
    cs = cs.takeWhile (· != ';') ++ ';' :: rest ∧ ';' ∉ cs.takeWhile (· != ';') := by
  have hover := runOver_dropWhile (· != ';') cs
  rw [h] at hover
  obtain rfl : c = ';' := by simpa using hover c rfl
  constructor
  · rw [← h]
    exact List.takeWhile_append_dropWhile.symm
  · intro hmem
    have hne := List.mem_takeWhile_imp hmem
    simp at hne

theorem sound_directive {cs body : List Char} {n : Nat} (h : directive cs = some (body, n)) :
    ∃ lexeme rest, cs = lexeme ++ rest ∧ directiveForm lexeme body rest ∧ n = lexeme.length := by
  unfold directive at h
  split at h
  case h_1 => cases h
  case h_2 afterPragma hpragma =>
    dsimp only at h
    split at h
    case h_2 => cases h
    case h_1 afterName hgap hname =>
      split at h
      case h_1 => cases h
      case h_2 c rest hrest =>
        split at h
        case isTrue => cases h
        case isFalse hcond =>
          cases h
          rw [afterStart?_eq_some] at hpragma hname
          have hsplit : afterPragma.takeWhile isAsciiBlank ++ afterPragma.dropWhile isAsciiBlank = afterPragma :=
            List.takeWhile_append_dropWhile
          have hsplit' : afterName.takeWhile isAsciiBlank ++ afterName.dropWhile isAsciiBlank = afterName :=
            List.takeWhile_append_dropWhile
          obtain ⟨hbody, hsemicolon⟩ := eq_takeWhile_semicolon hrest
          simp only [Bool.or_eq_true, Bool.and_eq_true, decide_eq_true_eq, List.isEmpty_iff, not_or,
            not_and] at hcond
          refine ⟨_, rest, ?_, ⟨afterPragma.takeWhile isAsciiBlank, afterName.takeWhile isAsciiBlank, ?_,
            fun c hc => List.mem_takeWhile_imp hc, hcond.1, fun c hc => List.mem_takeWhile_imp hc, hsemicolon,
            ?_, ?_, rfl⟩, ?_⟩
          · simp only [List.append_assoc, List.singleton_append]
            rw [← hbody, hsplit', ← hname, hsplit, ← hpragma]
          · rw [hgap]
            exact List.cons_ne_nil _ _
          · have hover := runOver_dropWhile isAsciiBlank afterName
            rw [hbody] at hover
            exact hover.of_append
          · intro hnil
            have hlong := hcond.2 hnil
            omega
          · simp
            omega

theorem complete_directive {lexeme body rest : List Char} (h : directiveForm lexeme body rest) :
    directive (lexeme ++ rest) = some (body, lexeme.length) := by
  obtain ⟨gap, blanks, hgap, hgapBlank, hblanks, hblanksBlank, hsemicolon, hover, hlong, rfl⟩ := h
  have htext : "pragma".toList ++ (gap ++ ("solidity".toList ++ (blanks ++ (body ++ [';'])))) ++ rest =
      "pragma".toList ++ (gap ++ ("solidity".toList ++ (blanks ++ (body ++ ';' :: rest)))) := by
    simp only [List.append_assoc, List.singleton_append]
  have hname : RunOver isAsciiBlank ("solidity".toList ++ (blanks ++ (body ++ ';' :: rest))) :=
    runOver_cons (by decide) _
  have hover' := runOver_semicolon hover rest
  have hend : RunOver (· != ';') (';' :: rest) := runOver_cons (by decide) rest
  have hbody : ∀ c ∈ body, (c != ';') = true := by
    intro c hc
    rw [bne_iff_ne]
    rintro rfl
    exact hsemicolon hc
  obtain ⟨g, gs, rfl⟩ := List.exists_cons_of_ne_nil hgap
  rw [htext]
  unfold directive
  rw [afterStart?_eq_some.mpr rfl]
  dsimp only
  rw [takeWhile_run hgapBlank hname, dropWhile_run hgapBlank hname, afterStart?_eq_some.mpr rfl]
  dsimp only
  rw [takeWhile_run hblanksBlank hover', dropWhile_run hblanksBlank hover', takeWhile_run hbody hend,
    dropWhile_run hbody hend]
  dsimp only
  rw [if_neg]
  · simp
    omega
  · simp only [Bool.or_eq_true, Bool.and_eq_true, decide_eq_true_eq, List.isEmpty_iff, not_or, not_and]
    refine ⟨hblanks, fun hnil => ?_⟩
    have := hlong hnil
    omega

theorem finds_directive : directive.Finds directiveForm where
  nonempty h := by
    obtain ⟨gap, blanks, -, -, -, -, -, -, -, rfl⟩ := h
    simp
  sound := sound_directive
  complete := complete_directive

end Pragma

end SolidityAst.Solc
