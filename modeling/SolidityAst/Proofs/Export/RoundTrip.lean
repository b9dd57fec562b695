import SolidityAst.Export.Artifact
import SolidityAst.Proofs.Ast.Annotation
import SolidityAst.Proofs.Json.Layout
import SolidityAst.Proofs.Text.Utf8Decode

/-!
An artifact holds its tree.

The tree that was read and annotated is read back from the artifact, and from its compact texts, with the
members of every object as they were.  Annotating it once more changes nothing, neither before it is written
nor after it is read back.
-/
namespace SolidityAst

open Source Text

/-! ## Annotated trees -/

namespace Ast

theorem wellFormed_location (l : Location) : l.toJson.WellFormed :=
  location_induction (fun n => Json.wellFormed_int n) (fun _ hkeys _ h => .object hkeys h) l

theorem wellFormed_annotate (index : LineIndex) {v : Json} (h : v.WellFormed) :
    (annotate index v).WellFormed := by
  induction h with
  | null => exact .null
  | bool b => exact .bool b
  | number h => exact .number h
  | string s => exact .string s
  | array _ ih =>
    rw [annotate, annotateItems_eq_map]
    exact .array (List.forall_mem_map.mpr ih)
  | object hkeys _ ih =>
    rw [annotate_object]
    refine .object ?_ (List.forall_mem_map.mpr fun m hm => ?_)
    · rw [List.map_map]
      exact nodup_withLocation index hkeys
    · rcases mem_withLocation hm with ⟨l, rfl⟩ | hm
      · rw [annotate_of_located index (located_location l)]
        exact wellFormed_location l
      · exact ih m hm

theorem sorted_eq_string (v : Json) (s : String) : Json.sorted v = .string s ↔ v = .string s := by
  cases v <;> simp only [Json.sorted, reduceCtorEq]

-- What an object has under its keys does not depend on the order in which they stand.
theorem located_sorted {v : Json} (hwell : v.WellFormed) (h : Located v) : Located v.sorted := by
  induction hwell with
  | null => exact .null
  | bool b => exact .bool b
  | number _ => exact .number _
  | string s => exact .string s
  | array _ ih =>
    cases h with
    | array h =>
      rw [Json.sorted, Json.sortedItems_eq_map]
      exact .array (List.forall_mem_map.mpr fun v hv => ih v hv (h v hv))
  | @object members hkeys _ ih =>
    cases h with
    | object hself h =>
      rw [Json.sorted, Json.sortedMembers_eq_map]
      refine .object (hself.imp (fun hloc => ?_) fun hrange => ?_) fun m hm => ?_
      · rw [Json.find?_sorted hkeys, Option.isSome_map]
        exact hloc
      · rw [← hrange]
        exact rangeOf?_of_map sorted_eq_string (Json.find?_sorted hkeys "src")
      · obtain ⟨n, hn, rfl⟩ := List.mem_map.mp (Assoc.mem_ofList hm)
        exact ih n hn (h n hn)

end Ast

/-! ## Artifacts -/

namespace Export

open Json

theorem read?_compact (style : Style) {v : Json} (h : v.WellFormed) (hdepth : v.depth ≤ maxDepth) :
    Json.read? (Utf8.chars (Utf8.encode (compact style v))) = some (sorted v, []) := by
  rw [Utf8.chars_encode, compact, String.toList_ofList]
  exact (writes_compact style).read?_text h hdepth 0 stops_nil

-- Whether there is an indentation or not, the text is one of the value with a line feed after it.
theorem exists_writes_encode {indent : String} (hindent : ∀ c ∈ indent.toList, isSpace c = true)
    {v : Json} (h : v.WellFormed) :
    ∃ layout text, Writes .plain layout text ∧ Utf8.chars (encode indent v) = text 0 v ['\n'] := by
  have hline : "\n".toList = ['\n'] := rfl
  rw [encode, Utf8.chars_encode, String.toList_append, hline, indented]
  by_cases hempty : indent = ""
  · refine ⟨_, _, writes_compact .plain, ?_⟩
    rw [if_pos hempty, compact, String.toList_ofList]
    exact ((writes_compact .plain).append h 0 [] ['\n']).symm
  · refine ⟨_, _, writes_spread .plain hindent, ?_⟩
    rw [if_neg hempty, String.toList_ofList]
    exact ((writes_spread .plain hindent).append h 0 [] ['\n']).symm

-- Every number of a tree that was read is one.
theorem invalidNumber?_of_wellFormed {v : Json} (h : v.WellFormed) : v.invalidNumber? = none := by
  induction h with
  | null => rfl
  | bool b => rfl
  | string s => rfl
  | @number literal hnumber =>
    have hread := readNumber_append hnumber stops_nil
    rw [List.append_nil] at hread
    rw [invalidNumber?, if_pos hread]
  | @array items _ ih =>
    rw [invalidNumber?]
    clear * - ih
    induction items with
    | nil => rfl
    | cons v vs ihvs =>
      rw [invalidItem?, ih v List.mem_cons_self, Option.none_or]
      exact ihvs fun w hw => ih w (List.mem_cons_of_mem _ hw)
  | @object members _ _ ih =>
    rw [invalidNumber?]
    clear * - ih
    induction members with
    | nil => rfl
    | cons m ms ihms =>
      rw [invalidMember?, ih m List.mem_cons_self, Option.none_or]
      exact ihms fun n hn => ih n (List.mem_cons_of_mem _ hn)

/-- The tree of a source can be written.  It is read back from its artifact, up to the one line feed at the end, and
from its compact texts; and the artifact without its blanks is the compact text. -/
theorem encode_round_trip (raw source : Bytes) (indent : String) {v : Json} {rest : List Char}
    (hread : Json.read? (Utf8.chars raw) = some (v, rest))
    (hindent : ∀ c ∈ indent.toList, isSpace c = true)
    (hdepth : (Ast.annotate (.ofSource source) v).depth ≤ maxDepth) :
    tryEncode indent (Ast.annotate (.ofSource source) v) =
        .ok (encode indent (Ast.annotate (.ofSource source) v)) ∧
    ∃ tree, Same tree (Ast.annotate (.ofSource source) v) ∧
      Json.read? (Utf8.chars (encode indent (Ast.annotate (.ofSource source) v))) =
        some (tree, ['\n']) ∧
      (∀ style, Json.read? (Utf8.chars (Utf8.encode (compact style (Ast.annotate (.ofSource source) v)))) =
        some (tree, [])) ∧
      withoutBlanks .outside (Utf8.chars (encode indent (Ast.annotate (.ofSource source) v))) =
        (compact .plain (Ast.annotate (.ofSource source) v)).toList := by
  have hwell := Ast.wellFormed_annotate (.ofSource source) (wellFormed_of_readValue hread)
  generalize Ast.annotate (.ofSource source) v = t at hwell hdepth ⊢
  obtain ⟨layout, text, hwrites, htext⟩ := exists_writes_encode hindent hwell
  refine ⟨by rw [tryEncode, invalidNumber?_of_wellFormed hwell],
    sorted t, same_sorted hwell, ?_, fun style => read?_compact style hwell hdepth, ?_⟩
  · rw [htext]
    exact hwrites.read?_text hwell hdepth 0 (stops_cons (by decide) [])
  · rw [htext, hwrites.withoutBlanks hwell, compact, String.toList_ofList]
    rfl

/-- A node with a range, a number that is not in its shortest form and a character of HTML. -/
def nodeText : String := "\x7b\"src\":\"0:1:0\",\"value\":[1.50,\"<\"]\x7d"

/-- What `nodeText` is read as. -/
def node : Json :=
  .object [("src", .string "0:1:0"), ("value", .array [.number "1.50", .string "<"])]

theorem read?_nodeText : Json.read? (Utf8.chars (Utf8.encode nodeText)) = some (node, []) := by
  rw [Utf8.chars_encode]
  rfl

theorem encode_round_trip_node :
    (Ast.annotate (.ofSource [0x61]) node).depth = 3 ∧
    tryEncode "  " (Ast.annotate (.ofSource [0x61]) node) =
        .ok (encode "  " (Ast.annotate (.ofSource [0x61]) node)) ∧
    ∃ tree, Same tree (Ast.annotate (.ofSource [0x61]) node) ∧
      Json.read? (Utf8.chars (encode "  " (Ast.annotate (.ofSource [0x61]) node))) =
        some (tree, ['\n']) ∧
      (∀ style, Json.read? (Utf8.chars (Utf8.encode (compact style (Ast.annotate (.ofSource [0x61]) node)))) =
        some (tree, [])) ∧
      withoutBlanks .outside (Utf8.chars (encode "  " (Ast.annotate (.ofSource [0x61]) node))) =
        (compact .plain (Ast.annotate (.ofSource [0x61]) node)).toList :=
  ⟨by decide +kernel,
    encode_round_trip (Utf8.encode nodeText) [0x61] "  " read?_nodeText
      (List.all_eq_true.mp (by decide)) (by decide +kernel)⟩

/-- Annotating an annotated tree once more, with the lines of whatever source, changes nothing; nor does it
change what is read back from the artifact of the tree. -/
theorem annotate_again (first second : LineIndex) (t : Json) :
    Ast.annotate second (Ast.annotate first t) = Ast.annotate first t ∧
      (t.WellFormed → (Ast.annotate first t).depth ≤ maxDepth →
        ∀ indent : String, (∀ c ∈ indent.toList, isSpace c = true) →
          ∃ tree, Json.read? (Utf8.chars (encode indent (Ast.annotate first t))) = some (tree, ['\n']) ∧
            Same tree (Ast.annotate first t) ∧ Ast.annotate second tree = tree) := by
  have hlocated := Ast.located_annotate first t
  refine ⟨Ast.annotate_of_located second hlocated, fun ht hdepth indent hindent => ?_⟩
  have hwell := Ast.wellFormed_annotate first ht
  obtain ⟨layout, text, hwrites, htext⟩ := exists_writes_encode hindent hwell
  -- In the artifact the members of a location are sorted like all others, and it is read as an object.
  refine ⟨sorted (Ast.annotate first t), ?_, same_sorted hwell, ?_⟩
  · rw [htext]
    exact hwrites.read?_text hwell hdepth 0 (stops_cons (by decide) [])
  · exact Ast.annotate_of_located second (Ast.located_sorted hwell hlocated)

theorem annotate_again_node :
    Ast.annotate (.ofSource []) (Ast.annotate (.ofSource [0x61]) node) = Ast.annotate (.ofSource [0x61]) node ∧
      ∃ tree, Json.read? (Utf8.chars (encode "  " (Ast.annotate (.ofSource [0x61]) node))) =
          some (tree, ['\n']) ∧
        Same tree (Ast.annotate (.ofSource [0x61]) node) ∧ Ast.annotate (.ofSource []) tree = tree := by
  obtain ⟨hagain, hartifact⟩ := annotate_again (.ofSource [0x61]) (.ofSource []) node
  exact ⟨hagain, hartifact (wellFormed_of_readValue read?_nodeText) (by decide +kernel) "  "
    (List.all_eq_true.mp (by decide))⟩

end Export

end SolidityAst
