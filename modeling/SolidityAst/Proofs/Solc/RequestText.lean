import SolidityAst.Proofs.Ast.Negotiation
import SolidityAst.Proofs.Ast.Outcome
import SolidityAst.Proofs.Json.Layout
import SolidityAst.Proofs.Text.Utf8Reading

/-!
The text of a request holds the source as it is.

A source without stray bytes is written like the string of its characters, so the whole request is written like a
JSON value, and that value is read back from it.  The bytes of the string that is read are those of the source,
and a parse looks up the places it is told in the lines of the same bytes.
-/
namespace SolidityAst.Solc

open Json Text

namespace Request

/-- A request for a source of the characters `s`, with its members in the order in which they are written. -/
def written (name s : String) (stop : Bool) : Json :=
  .object [("language", .string "Solidity"),
    ("sources", .object [(name, .object [("content", .string s)])]),
    ("settings", settings ⟨name, Utf8.encode s, stop⟩)]

/-- A request as it is read: the source under its name and nothing else, that of every file the tree is wanted,
and when to stop, if it is told. -/
def carried (name s : String) (stop : Bool) : Json :=
  .object [("language", .string "Solidity"),
    ("settings", .object (("outputSelection", .object [("*", .object [("", .array [.string "ast"])])]) ::
      if stop then [("stopAfter", .string "parsing")] else [])),
    ("sources", .object [(name, .object [("content", .string s)])])]

section

variable (name s : String) (stop : Bool)

theorem writeBytes_encode (style : Style) (k : List Char) :
    writeBytes style (Utf8.encode s) k = writeString style s k := by
  rw [writeBytes, writeString, Utf8.encode, Utf8.decode_encodeChars, List.flatMap_map]
  rfl

-- The three fixed pieces of a request are keys and values that need no escapes, written one by one.
theorem opening_eq (k : List Char) :
    "\x7b\"language\":\"Solidity\",\"sources\":\x7b".toList ++ k =
      '{' :: writeString .html "language" (':' :: writeString .html "Solidity"
        (',' :: writeString .html "sources" (':' :: '{' :: k))) := by
  simp [writeString, writeChar]

theorem contentKey_eq (k : List Char) :
    ":\x7b\"content\":".toList ++ k = ':' :: '{' :: writeString .html "content" (':' :: k) := by
  simp [writeString, writeChar]

theorem settingsKey_eq (k : List Char) :
    "\x7d\x7d,\"settings\":".toList ++ k = '}' :: '}' :: ',' :: writeString .html "settings" (':' :: k) := by
  simp [writeString, writeChar]

theorem chars_eq_write : chars ⟨name, Utf8.encode s, stop⟩ = write .html (written name s stop) [] := by
  unfold chars
  simp only [writeBytes_encode, opening_eq, contentKey_eq, settingsKey_eq]
  rw [written, write, writeMembers, writeMembers, writeMembers, write, write, writeMembers, write, writeMembers,
    write]

theorem wellFormed_settings (r : Request) : r.settings.WellFormed := by
  have houtput : WellFormed (.object [("*", .object [("", .array [.string "ast"])])]) := by
    refine .object (by simp) (List.forall_mem_singleton.mpr (.object (by simp) (List.forall_mem_singleton.mpr ?_)))
    exact .array (List.forall_mem_singleton.mpr (.string "ast"))
  unfold settings
  cases r.stopAfterParsing with
  | false => exact .object (by simp) (List.forall_mem_singleton.mpr houtput)
  | true =>
    refine .object (by simp) (List.forall_mem_cons.mpr ⟨.string "parsing", ?_⟩)
    exact List.forall_mem_singleton.mpr houtput

theorem wellFormed_written : (written name s stop).WellFormed := by
  refine .object (by simp) (List.forall_mem_cons.mpr ⟨.string "Solidity", List.forall_mem_cons.mpr ⟨?_, ?_⟩⟩)
  · refine .object (by simp) (List.forall_mem_singleton.mpr (.object (by simp) ?_))
    exact List.forall_mem_singleton.mpr (.string s)
  · exact List.forall_mem_singleton.mpr (wellFormed_settings _)

theorem depth_written : (written name s stop).depth = 5 := by
  cases stop <;> rfl

-- Reading puts the members in the order of their keys.
theorem sorted_written : sorted (written name s stop) = carried name s stop := by
  have hsources : ¬ "sources" < "language" := by decide
  cases stop <;>
  · simp only [written, carried, settings, sorted, sortedMembers, Assoc.ofList, List.foldl_cons, List.foldl_nil,
      Assoc.insert, hsources, if_false]
    rfl

theorem read?_text : Json.read? (Utf8.chars (Utf8.encode (text ⟨name, Utf8.encode s, stop⟩))) =
    some (carried name s stop, []) := by
  have hdepth : (written name s stop).depth ≤ maxDepth := by
    rw [depth_written]
    decide
  rw [Utf8.chars_encode, text, String.toList_ofList, chars_eq_write, ← sorted_written]
  exact (writes_compact .html).read?_text (wellFormed_written name s stop) hdepth 0 stops_nil

end

end Request

end SolidityAst.Solc

namespace SolidityAst.Ast

open Json Text Solc Source

/-- The places of an outcome, at the nodes of a tree and in the diagnostics of a rejection, are places in these
bytes. -/
def LocatesIn (bytes : Bytes) (outcome : Except Failure Tree) : Prop :=
  (∀ tree, outcome = .ok tree → ∃ root, tree.root = annotate (.ofSource bytes) root) ∧
    ∀ path ds, outcome = .error (.base (.rejected ⟨path, some ds⟩)) →
      ∃ es, List.Forall₂ (Repeats (.ofSource bytes)) ds es

section

variable {chosen : Except Failure Binary} {runner : Option Runner} {wish : Bool} {path : String} {source : Bytes}

theorem exists_requestFor_of_mem {request : Request}
    (h : request ∈ (parse chosen runner wish path source).requests) :
    ∃ stop, request = requestFor path source stop := by
  cases chosen with
  | error f => cases h
  | ok binary =>
    cases runner with
    | none => cases h
    | some run =>
      by_cases hagain : AsksAgain run binary path source (wish && Version.supportsStopAfter binary.version)
      · rw [parse_of_asksAgain hagain, parsedAfter_requests, List.mem_pair] at h
        rcases h with h | h
        · exact ⟨true, h⟩
        · exact ⟨false, h⟩
      · rw [parse_of_not_asksAgain hagain, parsedAfter_requests, List.mem_singleton] at h
        exact ⟨_, h⟩

theorem locatesIn_error {f : Failure} (h : ∀ e, f ≠ .base (.rejected e)) : LocatesIn source (.error f) := by
  constructor
  · intro tree htree
    cases htree
  · intro path ds hf
    exact absurd (Except.error.inj hf) (h _)

theorem locatesIn_conclude (binary : Binary) (r : Response) :
    LocatesIn source (conclude path source binary r).2 := by
  rcases blocking_cases r with ⟨e, he⟩ | ⟨hplaced, hne⟩ | hnone
  · rw [conclude_of_unplaced path source binary he]
    exact locatesIn_error (by simp [Failure.told])
  · obtain ⟨ds, hconclude, hds⟩ := conclude_of_placed path source binary hplaced hne
    rw [hconclude]
    constructor
    · intro tree htree
      cases htree
    · intro path' ds' hrejected
      cases hrejected
      exact ⟨blocking r, hds⟩
  · cases houtcome : (conclude path source binary r).2 with
    | error f =>
      have hplain := conclude_of_accepted_plain path source binary hnone houtcome
      apply locatesIn_error
      rintro e rfl
      cases hplain
    | ok tree =>
      obtain ⟨-, -, root, -, -, -, -, rfl⟩ := (conclude_of_accepted_eq_ok path source binary hnone tree).mp houtcome
      constructor
      · intro tree' htree
        rw [← Except.ok.inj htree]
        exact ⟨root, rfl⟩
      · intro path' ds hrejected
        cases hrejected

theorem locatesIn_parse : LocatesIn source (parse chosen runner wish path source).outcome := by
  rcases parse_cases chosen runner wish path source with ⟨-, f, hf, hunanswered⟩ | ⟨binary, r, -, houtcome⟩
  · rw [hf]
    obtain ⟨doing, inner, rfl, -⟩ := hunanswered
    exact locatesIn_error (by simp [Failure.during])
  · rw [houtcome]
    exact locatesIn_conclude binary r

end

/-- The text of a request for a source without stray bytes is read as the request that was meant: the language,
the source under its name and under no other, its content byte for byte, that the tree is wanted, and the wish
to stop after parsing exactly when it is there.  Every request of a parse carries the source in this way, and the
places the parse gives are places in the bytes that were carried. -/
theorem request_carries_source (name : String) (content : Bytes) (stop : Bool)
    (h : Utf8.valid content = true) :
    ∃ s, Utf8.encode s = content ∧
      Json.read? (Utf8.chars (Utf8.encode (Request.text ⟨name, content, stop⟩))) =
        some (Request.carried name s stop, []) ∧
      ∀ chosen runner wish path,
        (∀ request ∈ (parse chosen runner wish path content).requests, ∃ stop',
          Json.read? (Utf8.chars (Utf8.encode request.text)) =
            some (Request.carried (Path.base path) s stop', [])) ∧
        LocatesIn (Utf8.encode s) (parse chosen runner wish path content).outcome := by
  obtain ⟨cs, rfl⟩ := Utf8.valid_iff.mp h
  have hencode : Utf8.encode (String.ofList cs) = Utf8.encodeChars cs := by
    rw [Utf8.encode, String.toList_ofList]
  rw [← hencode]
  refine ⟨String.ofList cs, rfl, Request.read?_text name _ stop, fun chosen runner wish path => ⟨?_, ?_⟩⟩
  · intro request hrequest
    obtain ⟨stop', rfl⟩ := exists_requestFor_of_mem hrequest
    exact ⟨stop', Request.read?_text (Path.base path) _ stop'⟩
  · exact locatesIn_parse

-- A source with all that is escaped, and with characters of one to four bytes.
def escapedSource : Bytes := Utf8.encode "\"\\\n\x00\x7f<>&\u00e9\u2028\u2029😀"

theorem request_carries_source_escaped :
    Utf8.valid escapedSource = true ∧
      ∃ s, Utf8.encode s = escapedSource ∧
        Json.read? (Utf8.chars (Utf8.encode (Request.text ⟨"é\".sol", escapedSource, true⟩))) =
          some (Request.carried "é\".sol" s true, []) := by
  have hvalid : Utf8.valid escapedSource = true := Utf8.valid_iff.mpr ⟨_, rfl⟩
  obtain ⟨s, hs, hread, -⟩ := request_carries_source "é\".sol" escapedSource true hvalid
  exact ⟨hvalid, s, hs, hread⟩

end SolidityAst.Ast
