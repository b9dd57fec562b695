import SolidityAst.Ast.Diagnostic
import SolidityAst.Proofs.Json.Layout
import SolidityAst.Proofs.Text.Numeral

/-!
Diagnostics are read back from their text.

A reader looks up the fields of a diagnostic by their keys and takes one that is left out to be blank.  From the text
of a rejection it reads the diagnostics in their order, and no list from `null`.
-/
namespace SolidityAst.Ast

open Json Text

/-! ## Reading -/

/-- What is read under a key, or a blank value when the key is left out. -/
def under? {α : Type} (read : Json → Option α) (blank : α) (key : String) (members : List (String × Json)) :
    Option α :=
  ((Assoc.find? key members).map read).getD (some blank)

/-- The text of a string. -/
def text? : Json → Option String
  | .string s => some s
  | _ => none

/-- The integer of a number. -/
def integer? : Json → Option Int
  | .number literal => Numeral.integer? literal.toList
  | _ => none

/-- The diagnostic in an object. -/
def Diagnostic.ofJson? : Json → Option Diagnostic
  | .object members => do
    let severity ← under? text? "" "severity" members
    let kind ← under? text? "" "type" members
    let errorCode ← under? text? "" "errorCode" members
    let message ← under? text? "" "message" members
    let formattedMessage ← under? text? "" "formattedMessage" members
    let line ← under? integer? 0 "line" members
    let column ← under? integer? 0 "column" members
    return ⟨severity, kind, errorCode, message, formattedMessage, line, column⟩
  | _ => none

/-- The diagnostics in an array, in their order; null is no list. -/
def diagnosticsOf? : Json → Option (Option (List Diagnostic))
  | .null => some none
  | .array items => (items.mapM Diagnostic.ofJson?).map some
  | _ => none

/-- The diagnostics of a text that is one JSON value. -/
def readDiagnostics? (text : String) : Option (Option (List Diagnostic)) :=
  match Json.read? text.toList with
  | some (v, []) => diagnosticsOf? v
  | _ => none

/-! ## Diagnostics as values -/

theorem nodup_members (d : Diagnostic) : (d.members.map Prod.fst).Nodup := by
  unfold Diagnostic.members
  split <;> split <;> simp

theorem scalar_members (d : Diagnostic) :
    ∀ m ∈ d.members, (∃ s, m.2 = .string s) ∨ ∃ n : Int, m.2 = .int n := by
  unfold Diagnostic.members
  split <;> split <;> simp

theorem wellFormed_diagnostic (d : Diagnostic) : d.toJson.WellFormed := by
  refine .object (nodup_members d) fun m hm => ?_
  rcases scalar_members d m hm with ⟨s, hs⟩ | ⟨n, hn⟩
  · rw [hs]
    exact .string s
  · rw [hn]
    exact wellFormed_int n

theorem depth_diagnostic (d : Diagnostic) : d.toJson.depth ≤ 1 := by
  rw [Diagnostic.toJson, depth]
  refine Nat.succ_le_succ (membersDepth_le fun m hm => ?_)
  rcases scalar_members d m hm with ⟨s, hs⟩ | ⟨n, hn⟩
  · simp [hs, depth]
  · simp [hn, Json.int, depth]

theorem wellFormed_syntaxError (e : SyntaxError) : e.toJson.WellFormed := by
  unfold SyntaxError.toJson
  split
  · exact .null
  · exact .array (List.forall_mem_map.mpr fun d _ => wellFormed_diagnostic d)

theorem depth_syntaxError (e : SyntaxError) : e.toJson.depth ≤ 2 := by
  unfold SyntaxError.toJson
  split
  · decide
  · rw [depth]
    exact Nat.succ_le_succ (itemsDepth_le (List.forall_mem_map.mpr fun d _ => depth_diagnostic d))

/-! ## Reading back -/

-- Whether the two fields that may be empty are left out or not, what is under each key is the field.
theorem ofJson?_members (d : Diagnostic) : Diagnostic.ofJson? (.object d.members) = some d := by
  have hinteger : ∀ n : Int, integer? (.int n) = some n := fun n =>
    Numeral.integer?_eq_some_iff.mpr (Numeral.denotes_toString n)
  obtain ⟨severity, kind, errorCode, message, formattedMessage, line, column⟩ := d
  unfold Diagnostic.ofJson? Diagnostic.members under?
  by_cases hcode : errorCode = "" <;> by_cases hformatted : formattedMessage = "" <;>
    simp [hcode, hformatted, Assoc.find?, text?, hinteger]

theorem under?_sorted {α : Type} {read : Json → Option α} (hread : ∀ v, read (sorted v) = read v) {blank : α}
    {members : List (String × Json)} (hkeys : (members.map Prod.fst).Nodup) (key : String) :
    under? read blank key (Assoc.ofList (members.map fun m => (m.1, sorted m.2))) = under? read blank key members := by
  unfold under?
  rw [find?_sorted hkeys, Option.map_map]
  exact congrArg (fun f => ((Assoc.find? key members).map f).getD (some blank)) (funext hread)

-- The order in which the members stand does not matter to the reader.
theorem ofJson?_sorted (d : Diagnostic) : Diagnostic.ofJson? (sorted d.toJson) = some d := by
  have htext : ∀ v, text? (sorted v) = text? v := by
    intro v
    cases v <;> simp only [sorted, text?]
  have hinteger : ∀ v, integer? (sorted v) = integer? v := by
    intro v
    cases v <;> simp only [sorted, integer?]
  have hkeys := nodup_members d
  rw [← ofJson?_members d, Diagnostic.toJson, sorted, sortedMembers_eq_map]
  simp only [Diagnostic.ofJson?, under?_sorted htext hkeys, under?_sorted hinteger hkeys]

theorem mapM_ofJson? (ds : List Diagnostic) :
    (ds.map fun d => sorted d.toJson).mapM Diagnostic.ofJson? = some ds := by
  induction ds with
  | nil => rfl
  | cons d ds ih =>
    rw [List.map_cons, List.mapM_cons, ofJson?_sorted, ih]
    rfl

theorem diagnosticsOf?_sorted (e : SyntaxError) : diagnosticsOf? (sorted e.toJson) = some e.diagnostics := by
  unfold SyntaxError.toJson
  cases e.diagnostics with
  | none => rfl
  | some ds =>
    simp only [sorted, sortedItems_eq_map, List.map_map, diagnosticsOf?]
    exact congrArg (Option.map some) (mapM_ofJson? ds)

/-- The diagnostics of a rejection are read back from its text, whichever characters are escaped in it. -/
theorem readDiagnostics?_indented (style : Style) (e : SyntaxError) :
    readDiagnostics? (indented style "  " e.toJson) = some e.diagnostics := by
  have hblank : Blank "  ".toList := List.all_eq_true.mp (by decide)
  have hdepth : e.toJson.depth ≤ maxDepth := Nat.le_trans (depth_syntaxError e) (by decide)
  have hread := (writes_spread style hblank).read?_text (wellFormed_syntaxError e) hdepth 0 stops_nil
  rw [readDiagnostics?, indented, if_neg (by decide), String.toList_ofList, hread]
  exact diagnosticsOf?_sorted e

end SolidityAst.Ast
