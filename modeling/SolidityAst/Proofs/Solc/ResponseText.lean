import SolidityAst.Proofs.Assoc
import SolidityAst.Proofs.Json.Grammar
import SolidityAst.Proofs.Json.Spans
import SolidityAst.Proofs.Lists
import SolidityAst.Proofs.Text.Utf8Reading
import SolidityAst.Solc.Response

/-!
The answer is the first object of what the compiler writes.

What stands before its opening brace and behind its closing one makes no difference, whatever the object holds: it
is decoded, or refused, as if it stood alone.  The tree of a source is a piece of its bytes, and a value that is
refused is named by the member of the object that it stands in.
-/
namespace SolidityAst.Solc.Response

open Json Text

theorem chars_append (raw more : List Rune) : chars (raw ++ more) = chars raw ++ chars more := List.map_append

theorem length_chars (raw : List Rune) : (chars raw).length = raw.length := List.length_map _

/-! ## Members -/

/-- The members of an object with their characters. -/
def texts? : List Char → Option (List (String × List Char))
  | '\x7b' :: rest => (readObject (readRaw rest.length maxDepth) rest.length rest).map Prod.fst
  | _ => none

theorem texts?_of_members? {raw : List Rune} {ms : List (String × List Rune)} (h : members? raw = some ms) :
    texts? (chars raw) = some (ms.map fun m => (m.1, chars m.2)) ∧ ∀ m ∈ ms, m.2 <:+: raw := by
  unfold members? at h
  split at h
  · rename_i rest heq
    obtain ⟨⟨spans, after⟩, hspans, rfl⟩ := Option.map_eq_some_iff.mp h
    have hfollows := readObject_follows (fun hcs => readSpan_follows rest.length maxDepth hcs) rest.length
      (List.suffix_cons '\x7b' rest)
    rw [hspans] at hfollows
    obtain ⟨texts, htexts, hsame, -⟩ := hfollows.exists_some
    constructor
    · have heach : List.Forall₂ (fun span text => (span.1, chars (part raw span.2)) = text) spans texts := by
        refine hsame.imp fun span text ⟨hkey, hspan⟩ => ?_
        rw [← heq] at hspan
        rw [chars, map_part hspan, hkey]
      rw [heq, texts?, htexts, Option.map_some, List.map_map]
      rw [← List.forall₂_map_left_iff, List.forall₂_eq_eq_eq] at heach
      exact congrArg some heach.symm
    · intro m hm
      obtain ⟨span, -, rfl⟩ := List.mem_map.mp hm
      exact part_infix raw span.2
  · cases h

theorem texts?_eq {members ms : List (String × List Char)} {cs : List Char} (h : IsObject members cs)
    (hms : texts? cs = some ms) : ms = members := by
  obtain ⟨blank, cells, hblank, hvalues, rfl, rfl⟩ := h
  have hraw : ∀ c ∈ cells, Apart (fun fuel => readRaw fuel maxDepth) c.item.value := fun c hc =>
    ((hvalues c hc).apart_raw maxDepth).1
  have hread := readObject_bracketed hblank hraw (Nat.le_refl _) (List.append_nil _)
  obtain ⟨⟨ms', rest⟩, hwhole, rfl⟩ := Option.map_eq_some_iff.mp hms
  obtain ⟨ms'', hcells, heq⟩ := Option.map_eq_some_iff.mp (hread.symm.trans hwhole)
  obtain ⟨rfl, -⟩ := Prod.mk.inj heq
  refine eq_map_of_mapM (fun c hc m hm => ?_) hcells
  rw [(apart_member (hraw c hc)).2] at hm
  obtain ⟨raw, halone, rfl⟩ := Option.map_eq_some_iff.mp hm
  rw [((hvalues c hc).apart_raw maxDepth).2 raw halone]
  rfl

-- No other value starts with a brace.
theorem isObject_of_texts? {ms : List (String × List Char)} {cs : List Char} (h : IsValue cs)
    (hms : texts? cs = some ms) : IsObject ms cs := by
  cases h with
  | @object blank cells hblank h =>
    have hobject : IsObject (cells.map (·.item.entry)) (bracketed '\x7b' '\x7d' Member.text blank cells) :=
      ⟨blank, cells, hblank, h, rfl, rfl⟩
    rwa [texts?_eq hobject hms]
  | number h =>
    obtain ⟨c, cs, rfl, hc⟩ := h.head
    have hbrace : c ≠ '\x7b' := ne_of_isNumberChar (h.chars c List.mem_cons_self) (by decide)
    unfold texts? at hms
    split at hms
    · rename_i heq
      exact absurd (List.cons.inj heq).1 hbrace
    · cases hms
  | bool b => cases b <;> cases hms
  | _ => cases hms

theorem isObject_of_members? {raw : List Rune} {ms : List (String × List Rune)} (h : IsValue (chars raw))
    (hms : members? raw = some ms) : IsObject (ms.map fun m => (m.1, chars m.2)) (chars raw) :=
  isObject_of_texts? h (texts?_of_members? hms).1

theorem isValue_of_mem {members : List (String × List Char)} {cs : List Char} (h : IsObject members cs)
    {m : String × List Char} (hm : m ∈ members) : IsValue m.2 := by
  obtain ⟨blank, cells, -, hvalues, -, rfl⟩ := h
  obtain ⟨c, hc, rfl⟩ := List.mem_map.mp hm
  exact hvalues c hc

-- Inside the object its members have one level less than they are read with here.
theorem exists_members? {members : List (String × List Char)} {raw : List Rune} (h : IsObject members (chars raw))
    {p : List Char × List Char} (hread : readRaw raw.length maxDepth (chars raw) = some p) :
    ∃ ms, members? raw = some ms := by
  obtain ⟨blank, cells, hblank, hvalues, htext, -⟩ := h
  obtain ⟨rest, hrest⟩ : ∃ rest, bracketed '\x7b' '\x7d' Member.text blank cells = '\x7b' :: rest := ⟨_, rfl⟩
  obtain ⟨depth, hdepth⟩ : ∃ depth, maxDepth = depth + 1 := ⟨9999, rfl⟩
  rw [htext, hrest, hdepth] at hread
  obtain ⟨⟨v, after⟩, hvalue, -⟩ := Option.map_eq_some_iff.mp hread
  rw [readValue] at hvalue
  obtain ⟨⟨ms, after'⟩, hms, -⟩ := Option.map_eq_some_iff.mp hvalue
  -- Less fuel is enough too.
  have hobject : ∀ fuel, (bracketed '\x7b' '\x7d' Member.text blank cells).length ≤ fuel + 1 →
      readObject (readValue fuel depth) fuel rest = _ := fun fuel hfuel =>
    readObject_bracketed hblank (fun c hc => (hvalues c hc).apart depth) hfuel ((List.append_nil _).trans hrest)
  have hlong : (bracketed '\x7b' '\x7d' Member.text blank cells).length ≤ raw.length + 1 := by
    rw [← htext, length_chars]
    omega
  have hshort : (bracketed '\x7b' '\x7d' Member.text blank cells).length ≤ rest.length + 1 := by
    rw [hrest, List.length_cons]
  rw [hobject _ hlong, ← hobject _ hshort] at hms
  have hless : depth ≤ maxDepth := by omega
  have hfollows := readObject_follows (fun hcs => span_follows_readValue rest.length hless hcs) rest.length
    (List.suffix_cons '\x7b' rest)
  rw [hms] at hfollows
  obtain ⟨spans, hspans, -⟩ := hfollows.exists_some
  unfold members?
  rw [htext, hrest]
  exact ⟨_, Option.map_eq_some_iff.mpr ⟨_, hspans, rfl⟩⟩

theorem isNull_of_isObject {members : List (String × List Char)} {raw : List Rune} (h : IsObject members (chars raw)) :
    isNull raw = false := by
  obtain ⟨blank, cells, -, -, htext, -⟩ := h
  rw [Bool.eq_false_iff]
  intro hnull
  have hword := htext.symm.trans (eq_of_beq hnull)
  cases hword

/-- Fields are read from nothing, or from the members of an object in their order. -/
theorem readFields_cases {α : Type} {field : α → String → List Rune → Except Defect α} {old new : α}
    {raw : List Rune} (h : readFields field old raw = .ok new) :
    (isNull raw = true ∧ new = old) ∨
      ∃ ms, members? raw = some ms ∧ ms.foldlM (fun a m => field a m.1 m.2) old = .ok new := by
  unfold readFields at h
  split at h
  · rename_i hnull
    exact .inl ⟨hnull, (Except.ok.inj h).symm⟩
  · split at h
    · rename_i ms hms
      exact .inr ⟨ms, hms, h⟩
    · cases h

/-! ## Where trees come from -/

/-- The tree of a source: of the members called `ast` the last one counts. -/
def lastTree {α : Type} (fields : List (String × α)) : Option α :=
  (fields.filter fun f => isKey f.1 "ast").getLast?.map Prod.snd

theorem lastTree_cons {α : Type} (f : String × α) (fields : List (String × α)) :
    lastTree (f :: fields) = (lastTree fields).or (if isKey f.1 "ast" = true then some f.2 else none) := by
  unfold lastTree
  rw [List.filter_cons]
  split
  · rw [List.getLast?_cons]
    cases (fields.filter fun f => isKey f.1 "ast").getLast? <;> rfl
  · rw [Option.or_none]

theorem lastTree_map {α β : Type} (g : α → β) (fields : List (String × α)) :
    lastTree (fields.map fun f => (f.1, g f.2)) = (lastTree fields).map g := by
  unfold lastTree
  rw [List.filter_map, List.getLast?_map, Option.map_map, Option.map_map]
  rfl

theorem mem_of_lastTree {α : Type} {fields : List (String × α)} {a : α} (h : lastTree fields = some a) :
    ∃ f ∈ fields, f.2 = a := by
  obtain ⟨f, hf, rfl⟩ := Option.map_eq_some_iff.mp h
  exact ⟨f, List.mem_of_mem_filter (List.mem_of_getLast? hf), rfl⟩

theorem sourceField_ast {s s' : SourceEntry} {key : String} {raw : List Rune} (h : sourceField s key raw = .ok s') :
    s'.ast = if isKey key "ast" = true then some (Utf8.encodeRunes raw) else s.ast := by
  unfold sourceField at h
  split at h
  · rename_i hid
    obtain ⟨id, -, rfl⟩ := map_eq_ok_iff.mp h
    have hast : ¬ isKey key "ast" = true := by
      unfold isKey at hid ⊢
      rw [decide_eq_true_eq] at hid
      rw [hid]
      decide
    rw [if_neg hast]
  · split at h
    · rename_i hast
      cases h
      rw [if_pos hast]
    · rename_i hast
      cases h
      rw [if_neg hast]

-- The induction is on the members still to come; the tree read so far counts if none of them is one.
theorem ast_of_fields {fields : List (String × List Rune)} {old new : SourceEntry}
    (h : fields.foldlM (fun s f => sourceField s f.1 f.2) old = .ok new) :
    new.ast = ((lastTree fields).map Utf8.encodeRunes).or old.ast := by
  induction fields generalizing old with
  | nil =>
    cases h
    rfl
  | cons f fields ih =>
    rw [List.foldlM_cons] at h
    obtain ⟨s, hs, hrest⟩ := bind_eq_ok_iff.mp h
    rw [ih hrest, sourceField_ast hs, lastTree_cons]
    split
    · cases lastTree fields <;> rfl
    · rw [Option.or_none]

/-- The tree that the text of a source holds. -/
inductive HoldsTree : List Char → Option Bytes → Prop
  | null : HoldsTree "null".toList none
  | object {fields : List (String × List Char)} {cs : List Char} {tree : Option Bytes} (h : IsObject fields cs)
      (htree : tree.map Utf8.chars = lastTree fields) : HoldsTree cs tree

/-- A source is told by a member of the answer, and its tree stands there byte by byte. -/
def ToldBy (object : Bytes) (members : List (String × List Char)) (source : String × SourceEntry) : Prop :=
  (∃ key text sources cs, (key, text) ∈ members ∧ isKey key "sources" = true ∧ IsObject sources text ∧
    (source.1, cs) ∈ sources ∧ HoldsTree cs source.2.ast) ∧
  ∀ tree, source.2.ast = some tree → tree <:+: object

section

variable {object : Bytes} {members : List (String × List Char)}

theorem holdsTree_of_readFields {raw : List Rune} {s : SourceEntry} (hpart : raw <:+: Utf8.decode object)
    (hraw : IsValue (chars raw)) (h : readFields sourceField .blank raw = .ok s) :
    HoldsTree (chars raw) s.ast ∧ ∀ tree, s.ast = some tree → tree <:+: object := by
  rcases readFields_cases h with ⟨hnull, rfl⟩ | ⟨fields, hfields, hfold⟩
  · rw [eq_of_beq hnull]
    exact ⟨.null, fun _ htree => nomatch htree⟩
  · have hast := ast_of_fields hfold
    rw [SourceEntry.blank, Option.or_none] at hast
    -- Each field is a piece of the answer, and so are its bytes.
    have hreading : ∀ tree, lastTree fields = some tree →
        Utf8.decode (Utf8.encodeRunes tree) = tree ∧ Utf8.encodeRunes tree <:+: object := by
      intro tree htree
      obtain ⟨f, hf, rfl⟩ := mem_of_lastTree htree
      exact Utf8.reading_of_infix (((texts?_of_members? hfields).2 f hf).trans hpart)
    constructor
    · refine .object (isObject_of_members? hraw hfields) ?_
      rw [lastTree_map, hast, Option.map_map]
      apply Option.map_congr
      intro tree htree
      rw [Function.comp_apply, Utf8.chars, (hreading tree htree).1, chars]
    · intro tree htree
      rw [hast] at htree
      obtain ⟨raw, hlast, rfl⟩ := Option.map_eq_some_iff.mp htree
      exact (hreading raw hlast).2

theorem toldBy_of_sourcesOver {key : String} {raw : List Rune} (hm : (key, chars raw) ∈ members)
    (hkey : isKey key "sources" = true) (hvalue : IsValue (chars raw)) (hpart : raw <:+: Utf8.decode object)
    {old new : List (String × SourceEntry)} (hold : ∀ s ∈ old, ToldBy object members s)
    (h : sourcesOver old raw = .ok new) : ∀ s ∈ new, ToldBy object members s := by
  unfold sourcesOver at h
  split at h
  · cases h
    exact fun _ hs => nomatch hs
  · rcases readFields_cases h with ⟨-, rfl⟩ | ⟨entries, hentries, hfold⟩
    · exact hold
    have hobject := isObject_of_members? hvalue hentries
    refine foldlM_induction (P := fun sources => ∀ s ∈ sources, ToldBy object members s) ?_ hold hfold
    intro e he before after hbefore hafter s hs
    obtain ⟨entry, hentry, rfl⟩ := map_eq_ok_iff.mp hafter
    rcases Assoc.mem_insert hs with rfl | hs
    · have hmem : (e.1, chars e.2) ∈ entries.map fun m => (m.1, chars m.2) := List.mem_map_of_mem he
      have hinside := ((texts?_of_members? hentries).2 e he).trans hpart
      obtain ⟨htree, hbytes⟩ := holdsTree_of_readFields hinside (isValue_of_mem hobject hmem) hentry
      exact ⟨⟨key, chars raw, _, chars e.2, hm, hkey, hobject, hmem, htree⟩, hbytes⟩
    · exact hbefore s hs

-- One member of the answer: only one called `sources` adds sources, and each of them is told by it.
theorem toldBy_of_field {key : String} {raw : List Rune} (hm : (key, chars raw) ∈ members)
    (hvalue : IsValue (chars raw)) (hpart : raw <:+: Utf8.decode object) {p q : Partial}
    (hp : ∀ s ∈ p.sources, ToldBy object members s) (h : field p key raw = .ok q) :
    ∀ s ∈ q.sources, ToldBy object members s := by
  unfold field at h
  split at h
  · obtain ⟨errors, -, rfl⟩ := map_eq_ok_iff.mp h
    exact hp
  split at h
  · rename_i hkey
    obtain ⟨sources, hsources, rfl⟩ := map_eq_ok_iff.mp h
    exact toldBy_of_sourcesOver hm hkey hvalue hpart hp (mapError_eq_ok_iff.mp hsources)
  · cases h
    exact hp

end

/-! ## What is reported -/

/-- A value of the wrong kind is told by names of which the first is that of a member. -/
def Names (members : List (String × List Char)) : Defect → Prop
  | .malformed => True
  | .mismatch _ path _ => ∃ name, path.head? = some name ∧ ∃ m ∈ members, isKey m.1 name = true

theorem names_of_inField {α : Type} {members : List (String × List Char)} {m : String × List Char} (hm : m ∈ members)
    {name : String} (hkey : isKey m.1 name = true) {read : Except Defect α} {d : Defect}
    (h : inField name read = .error d) : Names members d := by
  obtain ⟨inner, -, rfl⟩ := mapError_eq_error_iff.mp h
  cases inner with
  | malformed => trivial
  | mismatch found path expected => exact ⟨name, rfl, m, hm, hkey⟩

theorem names_of_field {members : List (String × List Char)} {m : String × List Char} (hm : m ∈ members) {p : Partial}
    {raw : List Rune} {d : Defect} (h : field p m.1 raw = .error d) : Names members d := by
  unfold field at h
  split at h
  · rename_i hkey
    exact names_of_inField hm hkey (map_eq_error_iff.mp h)
  split at h
  · rename_i hkey
    exact names_of_inField hm hkey (map_eq_error_iff.mp h)
  · cases h

/-! ## What surrounds the answer -/

variable {members : List (String × List Char)}

/-- An object is refused, or its members are read one after another, whatever follows it. -/
theorem decode_object {raw : List Rune} (h : IsObject members (chars raw)) :
    ∃ outcome, (∀ more, decode (raw ++ more) = outcome) ∧
      (outcome = .error .malformed ∨
        ∃ ms, members? raw = some ms ∧ outcome =
          (ms.foldlM (fun p m => field p m.1 m.2) ⟨⟨[], []⟩, []⟩).map fun p => ⟨p.errors.current, p.sources⟩) := by
  obtain ⟨o, ho, hread⟩ := h.readRaw_append maxDepth
  have hmore : ∀ more, readRaw (raw ++ more).length maxDepth (chars (raw ++ more)) = o.map (·, chars more) := by
    intro more
    rw [chars_append]
    apply hread
    rw [length_chars, List.length_append]
    omega
  cases o with
  | none =>
    refine ⟨_, fun more => ?_, .inl rfl⟩
    rw [decode, hmore]
    rfl
  | some text =>
    obtain rfl := ho text rfl
    have halone := hmore []
    rw [List.append_nil] at halone
    obtain ⟨ms, hms⟩ := exists_members? h halone
    refine ⟨_, fun more => ?_, .inr ⟨ms, hms, rfl⟩⟩
    have hfields : readFields field ⟨⟨[], []⟩, []⟩ raw = ms.foldlM (fun p m => field p m.1 m.2) ⟨⟨[], []⟩, []⟩ := by
      rw [readFields, isNull_of_isObject h, hms]
      rfl
    rw [decode, hmore, ← hfields]
    dsimp only [Option.map_some]
    rw [length_chars, List.take_left]
    cases readFields field ⟨⟨[], []⟩, []⟩ raw <;> rfl

theorem decode_append {raw : List Rune} (h : IsObject members (chars raw)) (more : List Rune) :
    decode (raw ++ more) = decode raw := by
  obtain ⟨outcome, hall, -⟩ := decode_object h
  have halone := hall []
  rw [List.append_nil] at halone
  rw [hall, halone]

/-- Sources that are decoded are told by the object, and a refusal names one of its members. -/
theorem decode_told {object : Bytes} {raw : List Rune} (h : IsObject members (chars raw))
    (hpart : raw <:+: Utf8.decode object) :
    (∃ r, decode raw = .ok r ∧ ∀ s ∈ r.sources, ToldBy object members s) ∨
      ∃ d, decode raw = .error d ∧ Names members d := by
  obtain ⟨outcome, hall, hcases⟩ := decode_object h
  have halone := hall []
  rw [List.append_nil] at halone
  rw [halone]
  rcases hcases with rfl | ⟨ms, hms, rfl⟩
  · exact .inr ⟨.malformed, rfl, trivial⟩
  obtain ⟨htexts, hparts⟩ := texts?_of_members? hms
  obtain rfl := texts?_eq h htexts
  have hmem : ∀ m ∈ ms, (m.1, chars m.2) ∈ ms.map fun m => (m.1, chars m.2) := fun m hm => List.mem_map_of_mem hm
  cases hfold : ms.foldlM (fun p m => field p m.1 m.2) (⟨⟨[], []⟩, []⟩ : Partial) with
  | error d =>
    obtain ⟨m, hm, p, hfield⟩ := exists_of_foldlM_error hfold
    exact .inr ⟨d, rfl, names_of_field (hmem m hm) hfield⟩
  | ok p =>
    have hnone : ∀ s ∈ ([] : List (String × SourceEntry)), ToldBy object (ms.map fun m => (m.1, chars m.2)) s :=
      fun _ hs => nomatch hs
    refine .inl ⟨_, rfl, ?_⟩
    -- One member after another adds sources that are told by it.
    refine foldlM_induction (P := fun p => ∀ s ∈ p.sources, ToldBy object _ s) ?_ hnone hfold
    intro m hm p q hp hq
    exact toldBy_of_field (hmem m hm) (isValue_of_mem h (hmem m hm)) ((hparts m hm).trans hpart) hp hq

example : decode (Utf8.decode (Utf8.encode "\x7b\"errors\":[\x7b\"severity\":7\x7d]\x7d")) =
    .error (.mismatch "number" ["errors", "severity"] "string") := by decide +kernel

theorem dropWhile_banner {banner : Bytes} (h : 0x7B ∉ banner) (rest : Bytes) :
    (banner ++ rest).dropWhile (· != 0x7B) = rest.dropWhile (· != 0x7B) := by
  apply List.dropWhile_append_of_pos
  exact fun b hb => bne_iff_ne.mpr fun hbrace => h (hbrace ▸ hb)

/-- What a failure to decode the answer is called. -/
def undecoded (d : Defect) : Failure := .during "decode solc output" (.told d.message)

theorem parse_banner {banner : Bytes} (h : 0x7B ∉ banner) (rest : Bytes) :
    parse (banner ++ 0x7B :: rest) = (decode (Utf8.decode (0x7B :: rest))).mapError undecoded := by
  unfold parse
  rw [dropWhile_banner h, List.dropWhile_cons_of_neg (by decide)]
  dsimp only
  cases decode (Utf8.decode (0x7B :: rest)) <;> rfl

theorem exists_brace {object : Bytes} (h : IsObject members (Utf8.chars object)) :
    ∃ rest, object = 0x7B :: rest := by
  obtain ⟨blank, cells, -, -, htext, -⟩ := h
  have hfirst : Utf8.chars object = [] ++ '\x7b' :: _ := htext
  obtain ⟨before, after, rfl, hbefore, -⟩ := Utf8.exists_cut_of_ascii (by decide) hfirst
  rw [Utf8.eq_nil_of_chars hbefore]
  exact ⟨after, rfl⟩

-- The closing brace is one byte, so no character of the text reaches past it.
theorem decode_append_of_isObject {object : Bytes} (h : IsObject members (Utf8.chars object)) (trailer : Bytes) :
    Utf8.decode (object ++ trailer) = Utf8.decode object ++ Utf8.decode trailer := by
  obtain ⟨blank, cells, -, -, htext, -⟩ := h
  rw [bracketed, ← List.append_assoc, ← List.cons_append] at htext
  exact Utf8.decode_append_of_ascii (by decide) htext trailer

/-- The first object is decoded, or refused, as if it stood alone: what is before it and behind it makes no difference.
Each source comes from the object's text, with its tree as it stands there; a refusal names a member of the object, or
says that the text is malformed.  Without a brace there is no answer. -/
theorem parse_ignores_surroundings {banner object : Bytes} (hbanner : 0x7B ∉ banner)
    (hobject : IsObject members (Utf8.chars object)) (trailer : Bytes) :
    parse (banner ++ object ++ trailer) = parse object ∧
      ((∃ r, parse object = .ok r ∧ ∀ s ∈ r.sources, ToldBy object members s) ∨
        ∃ d, parse object = .error (undecoded d) ∧ Names members d) ∧
      ∀ raw, 0x7B ∉ raw →
        parse raw = .error (.told ("no JSON object in solc output: " ++ Quoted.bytes (truncate 200 raw))) := by
  obtain ⟨rest, rfl⟩ := exists_brace hobject
  have halone : parse ([] ++ 0x7B :: rest) = _ := parse_banner (by simp) rest
  have hsurrounded := parse_banner hbanner (rest ++ trailer)
  rw [List.nil_append] at halone
  rw [← List.cons_append, decode_append_of_isObject hobject, decode_append hobject, ← halone] at hsurrounded
  refine ⟨?_, ?_, ?_⟩
  · rw [List.append_assoc, hsurrounded]
  · rw [halone]
    rcases decode_told hobject (List.infix_refl _) with ⟨r, hr, hsources⟩ | ⟨d, hd, hnames⟩
    · rw [hr]
      exact .inl ⟨r, rfl, hsources⟩
    · rw [hd]
      exact .inr ⟨d, rfl, hnames⟩
  · intro raw hraw
    have hnone := dropWhile_banner hraw []
    rw [List.append_nil] at hnone
    unfold parse
    rw [hnone]
    rfl

/-- Whether every character may stand in a string for itself. -/
def isPlain (cs : List Char) : Bool := cs.all fun c => c != '"' && c != '\\' && decide (0x20 ≤ c.toNat)

theorem isContent_of_isPlain {cs : List Char} (h : isPlain cs = true) : IsContent cs := by
  induction cs with
  | nil => exact .nil
  | cons c cs ih =>
    simp only [isPlain, List.all_cons, Bool.and_eq_true, bne_iff_ne, decide_eq_true_eq] at h
    obtain ⟨⟨⟨hquote, hslash⟩, hlow⟩, hcs⟩ := h
    exact .plain hquote hslash hlow (ih hcs)

/-- A member without blanks. -/
def bareMember (key value : List Char) (h : isPlain key = true) : Cell Member :=
  ⟨[], ⟨key, [], [], value, isContent_of_isPlain h, blank_nil, blank_nil⟩, [], blank_nil, blank_nil⟩

theorem isValue_bareMember (key : List Char) {value : List Char} (h : isPlain key = true) (hvalue : IsValue value) :
    ∀ c ∈ [bareMember key value h], IsValue c.item.value := by
  intro c hc
  rw [List.mem_singleton.mp hc]
  exact hvalue

/-- An answer with a quote and a brace inside a string. -/
def quotedBrace : String := "\x7b\"sources\":\x7b\"A\":\x7b\"ast\":\x7b\"b\":\"\\\"\x7d\"\x7d\x7d\x7d\x7d"

theorem isObject_quotedBrace :
    IsObject [("sources", "\x7b\"A\":\x7b\"ast\":\x7b\"b\":\"\\\"\x7d\"\x7d\x7d\x7d".toList)]
      (Utf8.chars (Utf8.encode quotedBrace)) := by
  have hstring : IsContent ['\\', '"', '\x7d'] := .short (by decide) (isContent_of_isPlain (by decide))
  have htree := isValue_bareMember ['b'] (by decide) (.string hstring)
  have hsource := isValue_bareMember "ast".toList (by decide) (.object blank_nil htree)
  have hsources := isValue_bareMember ['A'] (by decide) (.object blank_nil hsource)
  have hanswer := isValue_bareMember "sources".toList (by decide) (.object blank_nil hsources)
  refine ⟨[], _, blank_nil, hanswer, ?_, ?_⟩
  · rw [Utf8.chars_encode]
    decide +kernel
  · decide +kernel

theorem parse_ignores_surroundings_quotedBrace :
    0x7B ∉ Utf8.encode ">>> \"\x7d" ∧
      parse (Utf8.encode ">>> \"\x7d" ++ Utf8.encode quotedBrace ++ Utf8.encode "7\x7d \x7b") =
        .ok ⟨[], [("A", ⟨0, some (Utf8.encode "\x7b\"b\":\"\\\"\x7d\"\x7d")⟩)]⟩ ∧
      parse (Utf8.encode "Segmentation fault") =
        .error (.told "no JSON object in solc output: \"Segmentation fault\"") := by
  have hbanner : 0x7B ∉ Utf8.encode ">>> \"\x7d" := by decide +kernel
  obtain ⟨hsame, -, hnone⟩ :=
    parse_ignores_surroundings hbanner isObject_quotedBrace (Utf8.encode "7\x7d \x7b")
  refine ⟨hbanner, ?_, ?_⟩
  · rw [hsame]
    decide +kernel
  · rw [hnone _ (by decide +kernel)]
    decide +kernel

end SolidityAst.Solc.Response
