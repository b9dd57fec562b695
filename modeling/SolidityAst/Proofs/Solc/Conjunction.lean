import Mathlib.Algebra.Order.Ring.Int
import Mathlib.Data.Prod.Lex
import Mathlib.Order.Basic
import SolidityAst.Proofs.Solc.RequestedVersion
import SolidityAst.Proofs.Text.Numeral

/-!
Constraints that are conjunctions of comparators, such as `>=0.6.0 <0.8.0`.

A comparator admits the versions from where its range starts to where it ends.  The version that is picked comes
from the first upper bound, or else it is the highest of those that stand outside upper bounds.  In the one
case only the ends of the other ranges can exclude it, in the other case only their starts.
-/
namespace SolidityAst.Solc

open Text

/-! ## Numbers of versions -/

/-- The three numbers of a version. -/
structure Numbers where
  major : Nat
  minor : Nat
  patch : Nat
  deriving DecidableEq, Repr

namespace Numbers

/-- The numbers with the first of them weighing most. -/
def key (v : Numbers) : Nat ×ₗ Nat ×ₗ Nat := toLex (v.major, toLex (v.minor, v.patch))

theorem key_injective : Function.Injective key := by
  intro v w h
  cases v
  cases w
  simpa [key] using h

instance : LinearOrder Numbers := LinearOrder.lift' key key_injective

theorem le_iff_key {v w : Numbers} : v ≤ w ↔ key v ≤ key w := Iff.rfl

/-- The first version after `v` that a caret excludes: the leftmost number that is not zero has changed. -/
def nextBreaking (v : Numbers) : Numbers :=
  if v.major ≠ 0 then ⟨v.major + 1, 0, 0⟩
  else if v.minor ≠ 0 then ⟨0, v.minor + 1, 0⟩
  else ⟨0, 0, v.patch + 1⟩

/-- The first version of the next minor series. -/
def nextMinor (v : Numbers) : Numbers := ⟨v.major, v.minor + 1, 0⟩

end Numbers

namespace Version

/-- The numbers of a version, however large they are. -/
def numbers (v : String) : Numbers :=
  let parts := (fields '.' v).map fun part => digitsValue part.toList
  ⟨parts.getD 0 0, parts.getD 1 0, parts.getD 2 0⟩

end Version

namespace Pragma

open Version

theorem fields_version {l : Literal} (hl : l.IsNumeric) {patch : List Char} (hpatch : l.patch = some patch) :
    fields '.' l.version = [String.ofList l.major, String.ofList l.minor, String.ofList patch] := by
  have hpoint : isDigit '.' = false := by decide
  have hpatch' := hl.patch patch hpatch
  rw [fields, Literal.version, String.toList_ofList, hpatch, Option.getD_some, List.append_assoc,
    List.cons_append, splitOn_append_sep, splitOn_append_sep, splitOn_of_notMem (hl.major.notMem hpoint),
    splitOn_of_notMem (hl.minor.notMem hpoint), splitOn_of_notMem (hpatch'.notMem hpoint)]
  rfl

theorem numbers_version {l : Literal} (hl : l.IsNumeric) {patch : List Char} (hpatch : l.patch = some patch) :
    numbers l.version = ⟨digitsValue l.major, digitsValue l.minor, digitsValue patch⟩ := by
  unfold numbers
  rw [fields_version hl hpatch]
  simp only [List.map_cons, String.toList_ofList, List.getD_cons_zero, List.getD_cons_succ]

theorem component_numeral {cs : List Char} (h : IsNumeral cs) (hfits : digitsValue cs < Word.half) :
    component (String.ofList cs) = digitsValue cs := by
  rw [component, Numeral.nearestOr_decimal h.1 h.isDigit, ← digitsValue]
  dsimp only [Word.half, Word.greatest] at hfits ⊢
  omega

-- As long as the numbers have 64 bits, rank is their order.
theorem rank_version {l : Literal} (hl : l.IsNumeric) {patch : List Char} (hpatch : l.patch = some patch)
    (hmajor : digitsValue l.major < Word.half) (hminor : digitsValue l.minor < Word.half)
    (hfits : digitsValue patch < Word.half) :
    rank l.version = toLex ((digitsValue l.major : Int), toLex ((digitsValue l.minor : Int),
      (digitsValue patch : Int))) := by
  unfold rank triple
  rw [fields_version hl hpatch]
  simp only [List.map_cons, List.getD_cons_zero, List.getD_cons_succ, component_numeral hl.major hmajor,
    component_numeral hl.minor hminor, component_numeral (hl.patch patch hpatch) hfits]

/-! ## Comparators -/

/-- What may stand before a version. -/
inductive Sign where
  | caret
  | tilde
  | atLeast
  | above
  | atMost
  | below
  | equal
  | bare
  deriving DecidableEq, Repr

namespace Sign

def chars : Sign → List Char
  | caret => ['^']
  | tilde => ['~']
  | atLeast => ['>', '=']
  | above => ['>']
  | atMost => ['<', '=']
  | below => ['<']
  | equal => ['=']
  | bare => []

/-- Whether the sign makes an upper bound. -/
def isUpper : Sign → Bool
  | atMost | below => true
  | _ => false

/-- The range of a sign and a version has started at `v`. -/
def Starts : Sign → (bound v : Numbers) → Prop
  | caret, bound, v | tilde, bound, v | atLeast, bound, v | equal, bound, v | bare, bound, v => bound ≤ v
  | above, bound, v => bound < v
  | atMost, _, _ | below, _, _ => True

/-- The range of a sign and a version has not ended before `v`. -/
def Lasts : Sign → (bound v : Numbers) → Prop
  | caret, bound, v => v < bound.nextBreaking
  | tilde, bound, v => v < bound.nextMinor
  | atMost, bound, v | equal, bound, v | bare, bound, v => v ≤ bound
  | below, bound, v => v < bound
  | atLeast, _, _ | above, _, _ => True

instance : (s : Sign) → (bound v : Numbers) → Decidable (s.Starts bound v)
  | caret, bound, v | tilde, bound, v | atLeast, bound, v | equal, bound, v | bare, bound, v =>
    inferInstanceAs (Decidable (bound ≤ v))
  | above, bound, v => inferInstanceAs (Decidable (bound < v))
  | atMost, _, _ | below, _, _ => inferInstanceAs (Decidable True)

instance : (s : Sign) → (bound v : Numbers) → Decidable (s.Lasts bound v)
  | caret, bound, v => inferInstanceAs (Decidable (v < bound.nextBreaking))
  | tilde, bound, v => inferInstanceAs (Decidable (v < bound.nextMinor))
  | atMost, bound, v | equal, bound, v | bare, bound, v => inferInstanceAs (Decidable (v ≤ bound))
  | below, bound, v => inferInstanceAs (Decidable (v < bound))
  | atLeast, _, _ | above, _, _ => inferInstanceAs (Decidable True)

section

variable {s : Sign} {bound v w : Numbers}

theorem Starts.mono (h : s.Starts bound v) (hle : v ≤ w) : s.Starts bound w := by
  cases s with
  | caret | tilde | atLeast | equal | bare => exact le_trans h hle
  | above => exact lt_of_lt_of_le h hle
  | atMost | below => trivial

theorem Lasts.anti (h : s.Lasts bound w) (hle : v ≤ w) : s.Lasts bound v := by
  cases s with
  | caret | tilde | below => exact lt_of_le_of_lt hle h
  | atMost | equal | bare => exact le_trans hle h
  | atLeast | above => trivial

theorem starts_iff (hupper : s.isUpper = false) :
    s.Starts bound v ↔ bound ≤ v ∧ (s = above → bound ≠ v) := by
  cases s with
  | caret | tilde | atLeast | equal | bare => simp [Starts]
  | above => simp [Starts, lt_iff_le_and_ne]
  | atMost | below => cases hupper

theorem starts_of_isUpper (hupper : s.isUpper = true) : s.Starts bound v := by
  cases s with
  | atMost | below => trivial
  | _ => cases hupper

end

end Sign

/-- A sign before a version of three numbers. -/
structure Comparator where
  sign : Sign
  major : List Char
  minor : List Char
  patch : List Char
  isNumeral_major : IsNumeral major
  isNumeral_minor : IsNumeral minor
  isNumeral_patch : IsNumeral patch

namespace Comparator

def literal (c : Comparator) : Literal := ⟨c.major, c.minor, some c.patch⟩

def chars (c : Comparator) : List Char := c.sign.chars ++ c.literal.chars

/-- The version of a comparator, as it is written. -/
def version (c : Comparator) : String := c.literal.version

def numbers (c : Comparator) : Numbers :=
  ⟨digitsValue c.major, digitsValue c.minor, digitsValue c.patch⟩

def isUpper (c : Comparator) : Bool := c.sign.isUpper

/-- The upper bound that a comparator with such a sign is. -/
def bound (c : Comparator) : UpperBound := ⟨decide (c.sign = .atMost), c.literal⟩

/-- The numbers of the comparator have 64 bits. -/
def Fits (c : Comparator) : Prop :=
  digitsValue c.major < Word.half ∧ digitsValue c.minor < Word.half ∧ digitsValue c.patch < Word.half

def Starts (c : Comparator) (v : Numbers) : Prop := c.sign.Starts c.numbers v

def Lasts (c : Comparator) (v : Numbers) : Prop := c.sign.Lasts c.numbers v

/-- The version lies in the range of the comparator. -/
def Admits (c : Comparator) (v : Numbers) : Prop := c.Starts v ∧ c.Lasts v

instance (c : Comparator) (v : Numbers) : Decidable (c.Lasts v) :=
  inferInstanceAs (Decidable (c.sign.Lasts c.numbers v))

instance (c : Comparator) (v : Numbers) : Decidable (c.Admits v) :=
  inferInstanceAs (Decidable (c.sign.Starts c.numbers v ∧ c.Lasts v))

variable (c : Comparator)

theorem isNumeric_literal : c.literal.IsNumeric := by
  refine ⟨c.isNumeral_major, c.isNumeral_minor, fun patch hpatch => ?_⟩
  cases hpatch
  exact c.isNumeral_patch

theorem numbers_version : Version.numbers c.version = c.numbers :=
  Pragma.numbers_version c.isNumeric_literal rfl

variable {c}

theorem rank_le_iff {d : Comparator} (hc : c.Fits) (hd : d.Fits) :
    rank c.version ≤ rank d.version ↔ c.numbers ≤ d.numbers := by
  rw [version, version, rank_version c.isNumeric_literal rfl hc.1 hc.2.1 hc.2.2,
    rank_version d.isNumeric_literal rfl hd.1 hd.2.1 hd.2.2, Numbers.le_iff_key]
  simp only [Prod.Lex.toLex_le_toLex, Numbers.key, literal, numbers]
  omega

theorem form_literal {rest : List Char} (hrest : RunOver isDigit rest) :
    Literal.form c.literal.chars c.literal rest := by
  refine ⟨c.isNumeric_literal, rfl, hrest, fun hnone => ?_⟩
  cases hnone

theorem form_bound (hupper : c.isUpper = true) {rest : List Char} (hrest : RunOver isDigit rest) :
    UpperBound.form c.chars c.bound rest := by
  refine ⟨[], c.literal.chars, by simp [Blanks], form_literal hrest, ?_⟩
  unfold isUpper at hupper
  unfold chars bound
  cases hsign : c.sign with
  | atMost => rfl
  | below => rfl
  | _ =>
    rw [hsign] at hupper
    cases hupper

theorem notMem_chars (hupper : c.isUpper = false) : '<' ∉ c.chars := by
  have hdigit : isDigit '<' = false := by decide
  have hsign : '<' ∉ c.sign.chars := by
    unfold isUpper at hupper
    cases hs : c.sign with
    | atMost | below =>
      rw [hs] at hupper
      cases hupper
    | _ => decide
  simp [chars, hsign, literal, Literal.chars, c.isNumeral_major.notMem hdigit, c.isNumeral_minor.notMem hdigit,
    c.isNumeral_patch.notMem hdigit]

end Comparator

theorem Sign.isDigit_eq_false (s : Sign) : ∀ c ∈ s.chars, isDigit c = false := by
  cases s <;> simp [Sign.chars, isDigit]

/-! ## Conjunctions -/

/-- Comparators with blanks between each two, and perhaps after the last. -/
inductive Spaced : List Comparator → List Char → Prop
  | nil {blanks : List Char} : Blanks blanks → Spaced [] blanks
  | cons {c : Comparator} {cs : List Comparator} {blanks text : List Char} :
      Blanks blanks → (cs ≠ [] → blanks ≠ []) → Spaced cs text →
      Spaced (c :: cs) (c.chars ++ (blanks ++ text))

/-- Every comparator admits the version. -/
def Satisfied (cs : List Comparator) (v : Numbers) : Prop := ∀ c ∈ cs, c.Admits v

instance (cs : List Comparator) (v : Numbers) : Decidable (Satisfied cs v) :=
  inferInstanceAs (Decidable (∀ c ∈ cs, c.Admits v))

theorem upperBound_eq_none {c : Char} (h : c ≠ '<') (cs : List Char) : upperBound (c :: cs) = none := by
  unfold upperBound
  split
  next heq =>
    cases heq
    exact absurd rfl h
  next heq =>
    cases heq
    exact absurd rfl h
  next => rfl

theorem literal_eq_none {c : Char} (h : isDigit c = false) (cs : List Char) : literal (c :: cs) = none := by
  unfold literal
  rw [(runOver_cons h cs).takeWhile_eq_nil]

theorem eraseFrom_append {cs : List Char} (h : '<' ∉ cs) (ds : List Char) :
    Pattern.eraseFrom upperBound (cs ++ ds) = cs ++ Pattern.eraseFrom upperBound ds := by
  induction cs with
  | nil => rfl
  | cons c cs ih =>
    rw [List.mem_cons, not_or] at h
    rw [List.cons_append, Pattern.eraseFrom_passed (upperBound_eq_none (Ne.symm h.1) _), ih h.2,
      List.cons_append]

theorem firstIn?_append {cs : List Char} (h : '<' ∉ cs) (ds : List Char) :
    Pattern.firstIn? upperBound (cs ++ ds) = Pattern.firstIn? upperBound ds := by
  induction cs with
  | nil => rfl
  | cons c cs ih =>
    rw [List.mem_cons, not_or] at h
    rw [List.cons_append, Pattern.firstIn?_passed (upperBound_eq_none (Ne.symm h.1) _), ih h.2]

theorem matchesIn_append_of_noDigit {cs : List Char} (h : ∀ c ∈ cs, isDigit c = false) (ds : List Char) :
    Pattern.matchesIn literal (cs ++ ds) = Pattern.matchesIn literal ds := by
  induction cs with
  | nil => rfl
  | cons c cs ih =>
    rw [List.cons_append, Pattern.matchesIn_passed (literal_eq_none (h c List.mem_cons_self) _)]
    exact ih fun d hd => h d (List.mem_cons_of_mem c hd)

theorem Blanks.isDigit_eq_false {cs : List Char} (h : Blanks cs) : ∀ c ∈ cs, isDigit c = false := by
  intro c hc
  have hblank := h c hc
  simp only [isAsciiBlank, Bool.or_eq_true, beq_iff_eq] at hblank
  rcases hblank with (((rfl | rfl) | rfl) | rfl) | rfl <;> rfl

-- Behind a comparator come blanks or the end, also where upper bounds are erased.
theorem Blanks.runOver {blanks text : List Char} (hblanks : Blanks blanks)
    (hnone : blanks = [] → Blanks text) : RunOver isDigit (blanks ++ text) := by
  have hall : ∀ {cs : List Char} (ds : List Char), Blanks cs → cs ≠ [] → RunOver isDigit (cs ++ ds) := by
    intro cs ds hcs hne
    obtain ⟨c, cs, rfl⟩ := List.exists_cons_of_ne_nil hne
    exact runOver_cons (hcs.isDigit_eq_false c List.mem_cons_self) _
  by_cases hgap : blanks = []
  · rw [hgap, List.nil_append]
    by_cases htext : text = []
    · rw [htext]
      exact fun c hc => nomatch hc
    · have hrun := hall [] (hnone hgap) htext
      rwa [List.append_nil] at hrun
  · exact hall text hblanks hgap

namespace Spaced

variable {cs : List Comparator} {text : List Char}

-- Where no blank follows a comparator it is the last, and the rest is blank.
theorem blanks_of_gap (h : Spaced cs text) {blanks : List Char} (hgap : cs ≠ [] → blanks ≠ [])
    (hnil : blanks = []) : Blanks text := by
  cases h with
  | nil hblanks => exact hblanks
  | cons => exact absurd hnil (hgap (List.cons_ne_nil _ _))

theorem firstIn?_eq (h : Spaced cs text) :
    Pattern.firstIn? upperBound text = (cs.find? Comparator.isUpper).map Comparator.bound := by
  induction h with
  | @nil blanks hblanks =>
    rw [← List.append_nil blanks, firstIn?_append (hblanks.notMem rfl)]
    rfl
  | @cons c cs blanks text hblanks hgap htext ih =>
    by_cases hupper : c.isUpper = true
    · have hrun := hblanks.runOver (htext.blanks_of_gap hgap)
      rw [finds_upperBound.firstIn?_found (Comparator.form_bound hupper hrun),
        List.find?_cons_of_pos hupper, Option.map_some]
    · rw [firstIn?_append (Comparator.notMem_chars (by simpa using hupper)), firstIn?_append (hblanks.notMem rfl),
        List.find?_cons_of_neg hupper]
      exact ih

theorem mentioned_eq (h : Spaced cs text) :
    mentioned text = (cs.filter fun c => !c.isUpper).map Comparator.version := by
  have hliterals : Pattern.matchesIn literal (Pattern.eraseFrom upperBound text) =
      (cs.filter fun c => !c.isUpper).map Comparator.literal := by
    induction h with
    | @nil blanks hblanks =>
      rw [← List.append_nil blanks, eraseFrom_append (hblanks.notMem rfl),
        matchesIn_append_of_noDigit hblanks.isDigit_eq_false]
      rfl
    | @cons c cs blanks text hblanks hgap htext ih =>
      have hend := htext.blanks_of_gap hgap
      by_cases hupper : c.isUpper = true
      · rw [finds_upperBound.eraseFrom_found (Comparator.form_bound hupper (hblanks.runOver hend)),
          eraseFrom_append (hblanks.notMem rfl), matchesIn_append_of_noDigit hblanks.isDigit_eq_false, ih,
          List.filter_cons_of_neg (by simpa using hupper)]
      · -- Erasing leaves the blanks alone, so the literal ends where it did before.
        have herased : blanks = [] → Blanks (Pattern.eraseFrom upperBound text) := by
          intro hnil
          have hsame := eraseFrom_append ((hend hnil).notMem rfl) []
          rw [List.append_nil] at hsame
          rw [hsame, show Pattern.eraseFrom upperBound [] = [] from rfl, List.append_nil]
          exact hend hnil
        rw [eraseFrom_append (Comparator.notMem_chars (by simpa using hupper)),
          eraseFrom_append (hblanks.notMem rfl), Comparator.chars, List.append_assoc,
          matchesIn_append_of_noDigit (Sign.isDigit_eq_false _),
          finds_literal.matchesIn_found (Comparator.form_literal (hblanks.runOver herased)),
          matchesIn_append_of_noDigit hblanks.isDigit_eq_false, ih,
          List.filter_cons_of_pos (by simpa using hupper), List.map_cons]
  rw [mentioned, hliterals, List.map_map]
  rfl

theorem candidates_eq (h : Spaced cs text) :
    candidates text =
      match (cs.find? Comparator.isUpper).bind fun b => b.bound.version? with
      | some v => [v]
      | none => (cs.filter fun c => !c.isUpper).map Comparator.version := by
  rw [candidates, pick?, h.firstIn?_eq, h.mentioned_eq, Option.bind_map]
  rfl

end Spaced

/-! ## The version that is picked -/

section

variable {source : Bytes} {text : List Char} {cs : List Comparator} {v : String}

theorem version?_of_bound (hone : constraints source = [text]) (htext : Spaced cs text) {b : Comparator}
    (hfirst : cs.find? Comparator.isUpper = some b) {p : String} (hp : b.bound.version? = some p) :
    version? source = some p := by
  rw [version?, hone, List.flatMap_singleton, htext.candidates_eq, hfirst, Option.bind_some, hp]
  rfl

theorem firstHighest_of_no_bound (hone : constraints source = [text]) (htext : Spaced cs text)
    (hnone : ∀ b, cs.find? Comparator.isUpper = some b → b.bound.version? = none)
    (hv : version? source = some v) :
    FirstHighest ((cs.filter fun c => !c.isUpper).map Comparator.version) v := by
  have hbound : ((cs.find? Comparator.isUpper).bind fun b => b.bound.version?) = none :=
    Option.bind_eq_none_iff.mpr hnone
  rw [version?, hone, List.flatMap_singleton, htext.candidates_eq, hbound] at hv
  exact highest?_eq_some_iff.mp hv

variable {u : Numbers}

-- From a version that is admitted upwards only the ends of ranges matter, and downwards only their starts.
theorem satisfied_iff_lasts (h : ∃ w ≤ u, Satisfied cs w) : Satisfied cs u ↔ ∀ c ∈ cs, c.Lasts u := by
  obtain ⟨w, hle, hw⟩ := h
  constructor
  · intro hu c hc
    exact (hu c hc).2
  · intro hlasts c hc
    exact ⟨(hw c hc).1.mono hle, hlasts c hc⟩

theorem satisfied_iff_starts (h : ∃ w, u ≤ w ∧ Satisfied cs w) : Satisfied cs u ↔ ∀ c ∈ cs, c.Starts u := by
  obtain ⟨w, hle, hw⟩ := h
  constructor
  · intro hu c hc
    exact (hu c hc).1
  · intro hstarts c hc
    exact ⟨hstarts c hc, (hw c hc).2.anti hle⟩

theorem forall_starts_iff : (∀ c ∈ cs, c.Starts u) ↔
    ∀ c ∈ cs, c.isUpper = false → c.numbers ≤ u ∧ (c.sign = .above → c.numbers ≠ u) := by
  constructor
  · intro h c hc hupper
    exact (Sign.starts_iff hupper).mp (h c hc)
  · intro h c hc
    cases hupper : c.isUpper with
    | false => exact (Sign.starts_iff hupper).mpr (h c hc hupper)
    | true => exact Sign.starts_of_isUpper hupper

theorem bound_version?_of_atMost {b : Comparator} (h : b.sign = .atMost) :
    b.bound.version? = some b.version := by
  unfold UpperBound.version?
  rw [if_pos (show b.bound.inclusive = true from decide_eq_true h)]
  rfl

theorem le_of_satisfied {b : Comparator} (hb : b ∈ cs) (h : b.sign = .atMost) (hu : Satisfied cs u) :
    u ≤ b.numbers := by
  have hlasts := (hu b hb).2
  unfold Comparator.Lasts at hlasts
  rw [h] at hlasts
  exact hlasts

end

/-- When the version that is picked satisfies a constraint of one directive that some version satisfies.  It comes
from the first upper bound if that is inclusive or has a known last release; then it satisfies the constraint
exactly when some version up to it does, which for an inclusive bound is sure, and no range ends before it.
Otherwise it is a version outside upper bounds; then it satisfies the constraint exactly when it is the highest of
these, which is sure as long as the numbers have 64 bits, and no comparator asks for a version above it. -/
theorem version?_satisfies_iff (source : Bytes) (text : List Char) (cs : List Comparator) (v : String)
    (hone : constraints source = [text]) (htext : Spaced cs text) (hsome : ∃ w, Satisfied cs w)
    (hv : version? source = some v) :
    (∀ b, cs.find? Comparator.isUpper = some b → b.sign = .atMost →
      v = b.version ∧ (Satisfied cs (numbers v) ↔ ∀ c ∈ cs, c.Lasts (numbers v))) ∧
    (∀ b p, cs.find? Comparator.isUpper = some b → b.bound.version? = some p →
      v = p ∧ (Satisfied cs (numbers v) ↔
        (∃ w ≤ numbers v, Satisfied cs w) ∧ ∀ c ∈ cs, c.Lasts (numbers v))) ∧
    ((∀ b, cs.find? Comparator.isUpper = some b → b.bound.version? = none) →
      (∃ c ∈ cs, c.isUpper = false ∧ v = c.version) ∧
      (Satisfied cs (numbers v) ↔ ∀ c ∈ cs, c.isUpper = false →
        c.numbers ≤ numbers v ∧ (c.sign = .above → c.numbers ≠ numbers v)) ∧
      ((∀ c ∈ cs, c.Fits) → ∀ c ∈ cs, c.isUpper = false → c.numbers ≤ numbers v)) := by
  obtain ⟨w, hw⟩ := hsome
  refine ⟨fun b hfirst hsign => ?_, fun b p hfirst hp => ?_, fun hnone => ?_⟩
  · have hpicked := version?_of_bound hone htext hfirst (bound_version?_of_atMost hsign)
    obtain rfl : v = b.version := Option.some.inj (hv.symm.trans hpicked)
    refine ⟨rfl, satisfied_iff_lasts ⟨w, ?_, hw⟩⟩
    rw [b.numbers_version]
    exact le_of_satisfied (List.mem_of_find?_eq_some hfirst) hsign hw
  · have hpicked := version?_of_bound hone htext hfirst hp
    obtain rfl : v = p := Option.some.inj (hv.symm.trans hpicked)
    refine ⟨rfl, fun hu => ⟨⟨_, le_refl _, hu⟩, fun c hc => (hu c hc).2⟩, fun h => ?_⟩
    exact (satisfied_iff_lasts h.1).mpr h.2
  · have hhighest := firstHighest_of_no_bound hone htext hnone hv
    obtain ⟨h, hmem, rfl⟩ := List.mem_map.mp hhighest.mem
    obtain ⟨hcs, hupper⟩ := List.mem_filter.mp hmem
    have hlower : h.isUpper = false := by simpa using hupper
    rw [h.numbers_version]
    refine ⟨⟨h, hcs, hlower, rfl⟩, ?_, fun hfits c hc hupper' => ?_⟩
    · -- What is admitted lies above every version outside upper bounds, the picked one included.
      have hle : h.numbers ≤ w := ((Sign.starts_iff hlower).mp (hw h hcs).1).1
      rw [satisfied_iff_starts ⟨w, hle, hw⟩, forall_starts_iff]
    · apply (Comparator.rank_le_iff (hfits c hc) (hfits h hcs)).mp
      apply hhighest.rank_le
      exact List.mem_map.mpr ⟨c, List.mem_filter.mpr ⟨hc, by simpa using hupper'⟩, rfl⟩

/-- `>=0.6.0 <0.8.0`, of which the last release before the bound is picked. -/
def seriesRange : List Comparator :=
  [⟨.atLeast, ['0'], ['6'], ['0'], by decide, by decide, by decide⟩,
    ⟨.below, ['0'], ['8'], ['0'], by decide, by decide, by decide⟩]

theorem spaced_seriesRange : Spaced seriesRange ">=0.6.0 <0.8.0".toList := by
  show Spaced seriesRange (">=0.6.0".toList ++ ([' '] ++ ("<0.8.0".toList ++ ([] ++ []))))
  exact .cons (by simp [Blanks, isAsciiBlank]) (by simp) (.cons (by simp [Blanks]) (by simp)
    (.nil (by simp [Blanks])))

theorem version?_satisfies_iff_seriesRange :
    constraints (Utf8.encode "pragma solidity >=0.6.0 <0.8.0;") = [">=0.6.0 <0.8.0".toList] ∧
      version? (Utf8.encode "pragma solidity >=0.6.0 <0.8.0;") = some "0.7.6" ∧
      Satisfied seriesRange (numbers "0.7.6") := by
  have hone : constraints (Utf8.encode "pragma solidity >=0.6.0 <0.8.0;") = [">=0.6.0 <0.8.0".toList] := by
    decide +kernel
  have hv : version? (Utf8.encode "pragma solidity >=0.6.0 <0.8.0;") = some "0.7.6" := by decide +kernel
  have hlow : Satisfied seriesRange ⟨0, 6, 0⟩ := by decide
  obtain ⟨-, hbound, -⟩ :=
    version?_satisfies_iff _ _ seriesRange "0.7.6" hone spaced_seriesRange ⟨_, hlow⟩ hv
  refine ⟨hone, hv, (hbound _ "0.7.6" rfl (by decide)).2.mpr ⟨⟨⟨0, 6, 0⟩, by decide, hlow⟩, ?_⟩⟩
  decide +kernel

/-- `>0.8.0 <0.8.2`, which only 0.8.1 satisfies. -/
def strictRange : List Comparator :=
  [⟨.above, ['0'], ['8'], ['0'], by decide, by decide, by decide⟩,
    ⟨.below, ['0'], ['8'], ['2'], by decide, by decide, by decide⟩]

theorem version?_misses_strictRange :
    constraints (Utf8.encode "pragma solidity >0.8.0 <0.8.2;") = [">0.8.0 <0.8.2".toList] ∧
      Spaced strictRange ">0.8.0 <0.8.2".toList ∧ Satisfied strictRange ⟨0, 8, 1⟩ ∧
      version? (Utf8.encode "pragma solidity >0.8.0 <0.8.2;") = some "0.8.0" ∧
      ¬ Satisfied strictRange (numbers "0.8.0") := by
  refine ⟨by decide +kernel, ?_, by decide, by decide +kernel, by decide +kernel⟩
  show Spaced strictRange (">0.8.0".toList ++ ([' '] ++ ("<0.8.2".toList ++ ([] ++ []))))
  exact .cons (by simp [Blanks, isAsciiBlank]) (by simp) (.cons (by simp [Blanks]) (by simp)
    (.nil (by simp [Blanks])))

end Pragma

end SolidityAst.Solc
