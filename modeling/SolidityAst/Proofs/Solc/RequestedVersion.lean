import Mathlib.Data.List.Induction
import SolidityAst.Proofs.Solc.Grammar
import SolidityAst.Proofs.Solc.Ranking

/-!
The version that a source asks for.

A directive ends with its first semicolon.  So a source that ends with one can be continued by any other, and the
constraints of both are those of the first and then those of the second.  Of all the versions that the
constraints give, the source asks for the first of the highest.
-/
namespace SolidityAst.Solc.Pragma

open Text Version

/-! ## A directive and its semicolon -/

theorem directiveForm.exists_init {lexeme body rest : List Char} (h : directiveForm lexeme body rest) :
    ∃ init, lexeme = init ++ [';'] ∧ ';' ∉ init := by
  obtain ⟨gap, blanks, -, hgap, -, hblanks, hbody, -, -, rfl⟩ := h
  refine ⟨"pragma".toList ++ (gap ++ ("solidity".toList ++ (blanks ++ body))), by simp, ?_⟩
  have hsemicolon : isAsciiBlank ';' = false := by decide
  simp [hgap.notMem hsemicolon, hblanks.notMem hsemicolon, hbody]

-- What follows a directive has no part in it.
theorem directive_of_form {lexeme body rest : List Char} (h : directiveForm lexeme body rest)
    (after : List Char) : directive (lexeme ++ after) = some (body, lexeme.length) :=
  complete_directive (show directiveForm lexeme body after from h)

-- Where a semicolon is still to come, a directive that starts here ends there at the latest.
theorem directive_append {cs : List Char} (hcs : ';' ∈ cs) (ds : List Char) :
    directive (cs ++ ds) = directive cs := by
  cases hfound : directive cs with
  | some found =>
    obtain ⟨body, n⟩ := found
    obtain ⟨lexeme, rest, rfl, hform, rfl⟩ := sound_directive hfound
    rw [List.append_assoc]
    exact directive_of_form hform (rest ++ ds)
  | none =>
    cases hboth : directive (cs ++ ds) with
    | none => rfl
    | some found =>
      obtain ⟨lexeme, rest, heq, hform, -⟩ := sound_directive hboth
      obtain ⟨init, hinit, hsemicolon⟩ := hform.exists_init
      rcases List.append_eq_append_iff.mp heq with ⟨more, hlexeme, -⟩ | ⟨more, rfl, -⟩
      · -- The match would go past `cs` and have the semicolon of `cs` before its own.
        cases more using List.reverseRecOn with
        | nil =>
          rw [List.append_nil] at hlexeme
          rw [← hlexeme, ← List.append_nil lexeme, directive_of_form hform] at hfound
          cases hfound
        | append_singleton more c =>
          rw [hlexeme, ← List.append_assoc] at hinit
          have hstart := (List.append_inj' hinit rfl).1
          rw [← hstart] at hsemicolon
          exact absurd (List.mem_append_left more hcs) hsemicolon
      · rw [directive_of_form hform] at hfound
        cases hfound

theorem semicolon_mem_of_suffix {first : Bytes} (h : Utf8.encode ";" <:+ first) {s : List Char}
    (hs : s <:+ Utf8.byteChars first) (hne : s ≠ []) : ';' ∈ s := by
  obtain ⟨init, rfl⟩ := h
  have hchars : Utf8.byteChars (init ++ Utf8.encode ";") = Utf8.byteChars init ++ [';'] := by
    rw [Utf8.byteChars, List.map_append]
    rfl
  rw [hchars] at hs
  obtain ⟨before, heq⟩ := hs
  cases s using List.reverseRecOn with
  | nil => exact absurd rfl hne
  | append_singleton s c =>
    rw [← List.append_assoc] at heq
    have hlast := (List.append_inj' heq rfl).2
    rw [(List.cons.inj hlast).1]
    simp

theorem constraints_append {first : Bytes} (h : Utf8.encode ";" <:+ first) (second : Bytes) :
    constraints (first ++ second) = constraints first ++ constraints second := by
  have hchars : Utf8.byteChars (first ++ second) = Utf8.byteChars first ++ Utf8.byteChars second :=
    List.map_append
  unfold constraints
  rw [hchars]
  apply Pattern.matchesIn_append
  · intro s hs hne
    exact directive_append (semicolon_mem_of_suffix h hs hne) _
  · intro s body n hfound
    exact finds_directive.length_le hfound

theorem version?_eq_higher {first : Bytes} (h : Utf8.encode ";" <:+ first) (second : Bytes) :
    version? (first ++ second) = higher (version? first) (version? second) := by
  rw [version?, constraints_append h, List.flatMap_append, highest?_append]
  rfl

@[simp] theorem higher_none (v : Option String) : higher v none = v := by
  cases v <;> rfl

/-- Nowhere in a source a directive starts. -/
def NoDirective (source : Bytes) : Prop :=
  ∀ before after, Utf8.byteChars source = before ++ after → after ≠ [] → directiveForm.Absent after

theorem version?_of_noDirective {source : Bytes} (h : NoDirective source) : version? source = none := by
  have hnone : constraints source = [] := finds_directive.matchesIn_eq_nil_iff.mpr h
  rw [version?, hnone]
  rfl

/-- What is asked for by a source that ends with a semicolon and another one after it: the version that one of
them asks for when the other asks for none, else the higher of the two, the first when they rank alike.  Text
without a directive, before or after, changes nothing. -/
theorem version?_append (first second : Bytes) (h : Utf8.encode ";" <:+ first) :
    (version? first = none → version? (first ++ second) = version? second) ∧
    (version? second = none → version? (first ++ second) = version? first) ∧
    (∀ v w, version? first = some v → version? second = some w →
      version? (first ++ second) = some (if Version.cmp w v = .gt then w else v)) ∧
    (NoDirective first → version? (first ++ second) = version? second) ∧
    (NoDirective second → version? (first ++ second) = version? first) := by
  have hboth := version?_eq_higher h second
  have hfirst : version? first = none → version? (first ++ second) = version? second := by
    intro hnone
    rw [hboth, hnone, higher]
  have hsecond : version? second = none → version? (first ++ second) = version? first := by
    intro hnone
    simp [hboth, hnone]
  refine ⟨hfirst, hsecond, fun v w hv hw => ?_, fun hno => ?_, fun hno => ?_⟩
  · rw [hboth, hv, hw, higher]
    simp only [later, beq_iff_eq]
  · exact hfirst (version?_of_noDirective hno)
  · exact hsecond (version?_of_noDirective hno)

theorem version?_append_twoPragmas :
    Utf8.encode ";" <:+ Utf8.encode "pragma solidity ^0.6.2;" ∧
      version? (Utf8.encode "pragma solidity ^0.6.2;" ++ Utf8.encode "pragma solidity ^0.6.12;") =
        some "0.6.12" := by
  have hends : Utf8.encode ";" <:+ Utf8.encode "pragma solidity ^0.6.2;" :=
    ⟨Utf8.encode "pragma solidity ^0.6.2", by decide +kernel⟩
  obtain ⟨-, -, hsome, -, -⟩ :=
    version?_append (Utf8.encode "pragma solidity ^0.6.2;") (Utf8.encode "pragma solidity ^0.6.12;") hends
  refine ⟨hends, ?_⟩
  rw [hsome "0.6.2" "0.6.12" (by decide +kernel) (by decide +kernel), if_pos (by decide +kernel)]

/-! ## The versions that constraints give -/

/-- What a constraint gives: the version of its first upper bound, and where that gives none, the literals of
what is left of it without its upper bounds. -/
inductive Gives (constraint : List Char) : List String → Prop
  | picked {v : String} : pick? constraint = some v → Gives constraint [v]
  | mentioned {bounds : List UpperBound} {literals : List Literal} {left rest : List Char} :
      pick? constraint = none → Cuts UpperBound.form constraint bounds left →
      Cuts Literal.form left literals rest → Gives constraint (literals.map Literal.version)

theorem gives_candidates (constraint : List Char) : Gives constraint (candidates constraint) := by
  unfold candidates
  split
  · rename_i v hpick
    exact .picked hpick
  · rename_i hpick
    exact .mentioned hpick (finds_upperBound.cuts constraint) (finds_literal.cuts _)

theorem Gives.eq_candidates {constraint : List Char} {vs : List String} (h : Gives constraint vs) :
    vs = candidates constraint := by
  unfold candidates
  cases h with
  | picked hpick => rw [hpick]
  | mentioned hpick hbounds hliterals =>
    rw [hpick, Pragma.mentioned, (finds_upperBound.cuts_iff.mp hbounds).2, (finds_literal.cuts_iff.mp hliterals).1]

theorem version?_eq_none_iff {source : Bytes} :
    version? source = none ↔ ∀ constraint ∈ constraints source, candidates constraint = [] := by
  rw [version?, highest?_eq_none_iff, List.flatMap_eq_nil_iff]

/-- Whatever the text, the constraints of a source are those of its directives, and the source asks for nothing
exactly when none of them gives a version.  Otherwise it asks for the first of the versions they give that ranks
at least as high as every other, and this is a release, which normalizing leaves as it is. -/
theorem version?_wellFormed_maximum (source : Bytes) :
    (∃ left, Cuts directiveForm (Utf8.byteChars source) (constraints source) left) ∧
    (∀ constraint vs, Gives constraint vs ↔ vs = candidates constraint) ∧
    (version? source = none ↔ ∀ constraint ∈ constraints source, candidates constraint = []) ∧
    (∀ v, version? source = some v ↔ FirstHighest ((constraints source).flatMap candidates) v) ∧
    ∀ v, version? source = some v → IsRelease v ∧ normalize v = v := by
  refine ⟨⟨_, finds_directive.cuts _⟩, fun constraint vs => ?_, version?_eq_none_iff, fun v => ?_,
    fun v hv => ?_⟩
  · refine ⟨fun h => h.eq_candidates, fun h => ?_⟩
    rw [h]
    exact gives_candidates constraint
  · exact highest?_eq_some_iff
  · have hrelease := isRelease_of_version? hv
    exact ⟨hrelease, hrelease.normalize_eq⟩

end SolidityAst.Solc.Pragma
