import SolidityAst.Text.Fields

/-!
Splitting a text at separators, and the text before or after a fixed part of it.

Splitting distributes over a separator, and a field never holds one.  `afterStart?` and `beforeEnd?`
succeed exactly on the texts that start or end with the given part.
-/
namespace SolidityAst.Text

/-! ## Fields -/

theorem splitOn_ne_nil (sep : Char) (cs : List Char) : splitOn sep cs ≠ [] := by
  induction cs with
  | nil => simp [splitOn]
  | cons c cs ih =>
    rw [splitOn]
    by_cases hc : c = sep
    · simp [hc]
    · rw [if_neg hc]
      split <;> simp

theorem splitOn_append_sep (sep : Char) (a b : List Char) :
    splitOn sep (a ++ sep :: b) = splitOn sep a ++ splitOn sep b := by
  induction a with
  | nil => simp [splitOn]
  | cons c a ih =>
    rw [List.cons_append, splitOn, splitOn]
    by_cases hc : c = sep
    · rw [if_pos hc, if_pos hc, ih, List.cons_append]
    · rw [if_neg hc, if_neg hc, ih]
      obtain ⟨f, fs, hf⟩ := List.exists_cons_of_ne_nil (splitOn_ne_nil sep a)
      rw [hf]
      rfl

theorem splitOn_of_notMem {sep : Char} {cs : List Char} (h : sep ∉ cs) :
    splitOn sep cs = [cs] := by
  induction cs with
  | nil => rfl
  | cons c cs ih =>
    rw [List.mem_cons, not_or] at h
    rw [splitOn, if_neg (Ne.symm h.1), ih h.2]

theorem notMem_of_mem_splitOn {sep : Char} {cs f : List Char} (h : f ∈ splitOn sep cs) :
    sep ∉ f := by
  induction cs generalizing f with
  | nil =>
    rw [splitOn, List.mem_singleton] at h
    simp [h]
  | cons c cs ih =>
    rw [splitOn] at h
    by_cases hc : c = sep
    · rw [if_pos hc, List.mem_cons] at h
      rcases h with rfl | h
      · simp
      · exact ih h
    · rw [if_neg hc] at h
      obtain ⟨g, gs, hg⟩ := List.exists_cons_of_ne_nil (splitOn_ne_nil sep cs)
      rw [hg] at h ih
      rcases List.mem_cons.mp h with rfl | h
      · rw [List.mem_cons, not_or]
        exact ⟨Ne.symm hc, ih List.mem_cons_self⟩
      · exact ih (List.mem_cons_of_mem _ h)

theorem fields_append_sep (sep : Char) (s t : String) :
    fields sep (s ++ String.singleton sep ++ t) = fields sep s ++ fields sep t := by
  have ht : (s ++ String.singleton sep ++ t).toList = s.toList ++ sep :: t.toList := by simp
  rw [fields, ht, splitOn_append_sep, List.map_append]
  rfl

theorem fields_of_notMem {sep : Char} {s : String} (h : sep ∉ s.toList) : fields sep s = [s] := by
  rw [fields, splitOn_of_notMem h, List.map_singleton, String.ofList_toList]

theorem notMem_of_mem_fields {sep : Char} {s f : String} (h : f ∈ fields sep s) :
    sep ∉ f.toList := by
  obtain ⟨cs, hcs, rfl⟩ := List.mem_map.mp h
  rw [String.toList_ofList]
  exact notMem_of_mem_splitOn hcs

/-- The fields of texts that are put together with the separator are the fields of the texts. -/
theorem fields_intercalate {sep : Char} {ss : List String} (h : ss ≠ []) :
    fields sep ((String.singleton sep).intercalate ss) = ss.flatMap (fields sep) := by
  induction ss with
  | nil => exact absurd rfl h
  | cons s ss ih =>
    by_cases hss : ss = []
    · simp [hss]
    · rw [String.intercalate_cons_of_ne_nil hss, fields_append_sep, ih hss, List.flatMap_cons]

/-! ## Starts and ends -/

theorem afterStart?_eq_some {p cs r : List Char} : afterStart? p cs = some r ↔ cs = p ++ r := by
  induction p generalizing cs with
  | nil => simp [afterStart?]
  | cons a p ih =>
    cases cs with
    | nil => simp [afterStart?]
    | cons c cs =>
      rw [afterStart?]
      by_cases hac : a = c
      · simp [hac, ih]
      · simp [hac, Ne.symm hac]

theorem dropStart_append (p cs : List Char) : dropStart p (p ++ cs) = cs := by
  rw [dropStart, afterStart?_eq_some.mpr rfl, Option.getD_some]

theorem dropStart_of_absent {p cs : List Char} (h : ¬ p <+: cs) : dropStart p cs = cs := by
  rw [dropStart]
  cases hafter : afterStart? p cs with
  | none => rfl
  | some rest => exact absurd ⟨rest, (afterStart?_eq_some.mp hafter).symm⟩ h

theorem beforeEnd?_eq_some {p cs r : List Char} : beforeEnd? p cs = some r ↔ cs = r ++ p := by
  rw [beforeEnd?, Option.map_eq_some_iff]
  constructor
  · rintro ⟨q, hq, rfl⟩
    rw [afterStart?_eq_some] at hq
    rw [← List.reverse_reverse cs, hq, List.reverse_append, List.reverse_reverse]
  · rintro rfl
    exact ⟨r.reverse, afterStart?_eq_some.mpr (by simp), List.reverse_reverse r⟩

theorem startsWith_iff {s p : String} : startsWith s p ↔ ∃ r, s = p ++ r := by
  rw [startsWith, Option.isSome_iff_exists]
  constructor
  · rintro ⟨r, hr⟩
    refine ⟨String.ofList r, ?_⟩
    rw [← String.toList_inj, String.toList_append, String.toList_ofList, afterStart?_eq_some.mp hr]
  · rintro ⟨r, rfl⟩
    exact ⟨r.toList, afterStart?_eq_some.mpr String.toList_append⟩

theorem endsWith_iff {s p : String} : endsWith s p ↔ ∃ r, s = r ++ p := by
  rw [endsWith, Option.isSome_iff_exists]
  constructor
  · rintro ⟨r, hr⟩
    refine ⟨String.ofList r, ?_⟩
    rw [← String.toList_inj, String.toList_append, String.toList_ofList, beforeEnd?_eq_some.mp hr]
  · rintro ⟨r, rfl⟩
    exact ⟨r.toList, beforeEnd?_eq_some.mpr String.toList_append⟩

end SolidityAst.Text
