import SolidityAst.Proofs.Cli.Interleaving

/-!
What ends the flags of a line.

A `--` where a flag or a positional may stand ends them.  A `--` that is the value of a flag should not; but where a
positional comes right behind it, all that follows is taken for positionals.  This is the only way in which the reader
leaves the rule, and it shows exactly when something else than a positional follows.
-/
namespace SolidityAst.Cli

/-! ## The rule -/

/-- Reads a line by the rule: flags are read everywhere, up to a `--` where a flag or a positional may stand.
`pending` is a flag whose value comes next. -/
def readAnywhere (flags : List Flag) : (pending : Option Flag) → List String → Except FlagError Line
  | none, [] => .ok ⟨[], []⟩
  | some f, [] => .error (.missingValue f.name)
  | some f, argument :: rest =>
    match f.read argument with
    | .error e => .error e
    | .ok s => (readAnywhere flags none rest).map (Line.set s)
  | none, argument :: rest =>
    match classify flags argument with
    | .wrong e => .error e
    | .separator => .ok ⟨[], rest⟩
    | .setting s => (readAnywhere flags none rest).map (Line.set s)
    | .awaiting f => readAnywhere flags (some f) rest
    | .positional => (readAnywhere flags none rest).map (Line.add argument)

/-- Arguments after which a flag or a positional may stand, with what they set and the positionals among them. -/
inductive Passed (flags : List Flag) : List String → Line → Prop
  | nil : Passed flags [] ⟨[], []⟩
  | setting {argument : String} {rest : List String} {s : Setting} {l : Line}
    (h : classify flags argument = .setting s) (hrest : Passed flags rest l) :
    Passed flags (argument :: rest) (l.set s)
  | value {argument value : String} {rest : List String} {f : Flag} {s : Setting} {l : Line}
    (h : classify flags argument = .awaiting f) (hvalue : f.read value = .ok s) (hrest : Passed flags rest l) :
    Passed flags (argument :: value :: rest) (l.set s)
  | positional {argument : String} {rest : List String} {l : Line} (h : IsPositional argument)
    (hrest : Passed flags rest l) : Passed flags (argument :: rest) (l.add argument)

/-- A positional comes first, and something behind it is none. -/
def FlagBehind : List String → Prop
  | [] => False
  | next :: others => IsPositional next ∧ ∃ other ∈ others, ¬ IsPositional other

/-- A `--` that is the value of a flag stands right before a positional, and something behind that is none. -/
inductive Misled (flags : List Flag) : List String → Prop
  | here {argument : String} {rest : List String} {f : Flag} {s : Setting} (h : classify flags argument = .awaiting f)
    (hvalue : f.read "--" = .ok s) (hrest : FlagBehind rest) : Misled flags (argument :: "--" :: rest)
  | setting {argument : String} {rest : List String} {s : Setting} (h : classify flags argument = .setting s)
    (hrest : Misled flags rest) : Misled flags (argument :: rest)
  | value {argument value : String} {rest : List String} {f : Flag} {s : Setting}
    (h : classify flags argument = .awaiting f) (hvalue : f.read value = .ok s) (hrest : Misled flags rest) :
    Misled flags (argument :: value :: rest)
  | positional {argument : String} {rest : List String} (h : IsPositional argument) (hrest : Misled flags rest) :
    Misled flags (argument :: rest)

variable {flags : List Flag}

/-- Goes through a line as a reader does, a flag with its value at a time. -/
theorem line_induction (flags : List Flag) {P : List String → Prop} (nil : P [])
    (wrong : ∀ {argument rest e}, classify flags argument = .wrong e → P (argument :: rest))
    (separator : ∀ {argument rest}, classify flags argument = .separator → P (argument :: rest))
    (setting : ∀ {argument rest s}, classify flags argument = .setting s → P rest → P (argument :: rest))
    (missing : ∀ {argument f}, classify flags argument = .awaiting f → P [argument])
    (refused : ∀ {argument value rest f e}, classify flags argument = .awaiting f → f.read value = .error e →
      P (argument :: value :: rest))
    (value : ∀ {argument value rest f s}, classify flags argument = .awaiting f → f.read value = .ok s → P rest →
      P (argument :: value :: rest))
    (positional : ∀ {argument rest}, classify flags argument = .positional → P rest → P (argument :: rest))
    (arguments : List String) : P arguments := by
  induction hlength : arguments.length using Nat.strongRecOn generalizing arguments with
  | ind n ih =>
    cases arguments with
    | nil => exact nil
    | cons argument rest =>
      have hrest : P rest := ih rest.length (by rw [← hlength, List.length_cons]; omega) rest rfl
      cases h : classify flags argument with
      | wrong e => exact wrong h
      | separator => exact separator h
      | setting s => exact setting h hrest
      | positional => exact positional h hrest
      | awaiting f =>
        cases rest with
        | nil => exact missing h
        | cons v rest =>
          cases hv : f.read v with
          | error e => exact refused h hv
          | ok s =>
            refine value h hv (ih rest.length ?_ rest rfl)
            rw [← hlength, List.length_cons, List.length_cons]
            omega

/-! ## Steps of the rule -/

section Steps

variable {argument value : String} {rest : List String} {f : Flag} {s : Setting}

theorem readAnywhere_setting (h : classify flags argument = .setting s) :
    readAnywhere flags none (argument :: rest) = (readAnywhere flags none rest).map (Line.set s) := by
  rw [readAnywhere, h]

theorem readAnywhere_value (h : classify flags argument = .awaiting f) (hvalue : f.read value = .ok s) :
    readAnywhere flags none (argument :: value :: rest) = (readAnywhere flags none rest).map (Line.set s) := by
  rw [readAnywhere, h]
  dsimp only
  rw [readAnywhere, hvalue]

theorem readAnywhere_positional (h : classify flags argument = .positional) :
    readAnywhere flags none (argument :: rest) = (readAnywhere flags none rest).map (Line.add argument) := by
  rw [readAnywhere, h]

end Steps

theorem map_eq_map_iff {g : Line → Line} (hg : ∀ l l', g l = g l' → l = l') {x y : Except FlagError Line} :
    x.map g = y.map g ↔ x = y := by
  constructor
  · intro h
    cases x with
    | error e =>
      cases y with
      | error e' => exact congrArg _ (Except.error.inj h)
      | ok l => cases h
    | ok l =>
      cases y with
      | error e => cases h
      | ok l' => rw [hg l l' (Except.ok.inj h)]
  · rintro rfl
    rfl

theorem Line.set_inj {s : Setting} (l l' : Line) (h : l.set s = l'.set s) : l = l' := by
  cases l
  cases l'
  simpa [Line.set] using h

theorem Line.add_inj {argument : String} (l l' : Line) (h : l.add argument = l'.add argument) : l = l' := by
  cases l
  cases l'
  simpa [Line.add] using h

theorem map_set_ne {s : Setting} {positionals : List String} (x : Except FlagError Line) :
    x.map (Line.set s) ≠ .ok ⟨[], positionals⟩ := by
  cases x <;> simp [Except.map, Line.set]

/-- By the rule, a line is all positionals only if each of its arguments is one. -/
theorem readAnywhere_eq_positionals_iff {arguments : List String} :
    readAnywhere flags none arguments = .ok ⟨[], arguments⟩ ↔ ∀ argument ∈ arguments, IsPositional argument := by
  induction arguments with
  | nil => exact iff_of_true (by rw [readAnywhere]) fun _ h => nomatch h
  | cons argument rest ih =>
    by_cases h : classify flags argument = .positional
    · have hline : (.ok ⟨[], argument :: rest⟩ : Except FlagError Line) =
          (Except.ok ⟨[], rest⟩).map (Line.add argument) := rfl
      rw [readAnywhere_positional h, hline, map_eq_map_iff Line.add_inj, ih, List.forall_mem_cons]
      exact (and_iff_right (classify_eq_positional_iff.mp h)).symm
    · -- Any other argument is an error, is left out, or sets something.
      refine iff_of_false ?_ fun hall => h (classify_eq_positional_iff.mpr (hall argument List.mem_cons_self))
      cases hclass : classify flags argument with
      | positional => exact absurd hclass h
      | wrong e =>
        rw [readAnywhere, hclass]
        simp
      | separator =>
        rw [readAnywhere, hclass]
        simp
      | setting s =>
        rw [readAnywhere_setting hclass]
        exact map_set_ne _
      | awaiting f =>
        rw [readAnywhere, hclass]
        dsimp only
        cases rest with
        | nil =>
          rw [readAnywhere]
          simp
        | cons value rest =>
          rw [readAnywhere]
          split
          · simp
          · exact map_set_ne _

/-! ## Where the reader leaves the rule -/

theorem readLine_stop {argument : String} {rest : List String} (h : classify flags argument = .positional) :
    readLine flags true none true (argument :: rest) = .ok ⟨[], argument :: rest⟩ := by
  rw [readLine, h]
  rfl

-- Behind a value `--` only a positional is read in another way.
theorem readLine_dashes {arguments : List String} (h : ∀ argument ∈ arguments.head?, ¬ IsPositional argument) :
    readLine flags true none true arguments = readLine flags true none false arguments := by
  cases arguments with
  | nil => rw [readLine, readLine]
  | cons argument rest =>
    rw [readLine, readLine]
    cases hclass : classify flags argument with
    | positional => exact absurd (classify_eq_positional_iff.mp hclass) (h argument rfl)
    | _ => rfl

/-- What makes a line with a first argument mislead the reader. -/
theorem misled_cons_iff {argument : String} {rest : List String} :
    Misled flags (argument :: rest) ↔
      match classify flags argument with
      | .wrong _ | .separator => False
      | .setting _ | .positional => Misled flags rest
      | .awaiting f => ∃ value after s, rest = value :: after ∧ f.read value = .ok s ∧
          (Misled flags after ∨ value = "--" ∧ FlagBehind after) := by
  constructor
  · intro h
    cases h with
    | here h hvalue hrest =>
      rw [h]
      exact ⟨_, _, _, rfl, hvalue, .inr ⟨rfl, hrest⟩⟩
    | setting h hrest =>
      rw [h]
      exact hrest
    | value h hvalue hrest =>
      rw [h]
      exact ⟨_, _, _, rfl, hvalue, .inl hrest⟩
    | positional h hrest =>
      rw [classify_eq_positional_iff.mpr h]
      exact hrest
  · intro h
    cases hclass : classify flags argument with
    | wrong e => simp [hclass] at h
    | separator => simp [hclass] at h
    | setting s =>
      rw [hclass] at h
      exact .setting hclass h
    | positional =>
      rw [hclass] at h
      exact .positional (classify_eq_positional_iff.mp hclass) h
    | awaiting f =>
      rw [hclass] at h
      obtain ⟨value, after, s, rfl, hvalue, hrest | ⟨rfl, hrest⟩⟩ := h
      · exact .value hclass hvalue hrest
      · exact .here hclass hvalue hrest

theorem not_misled_nil : ¬ Misled flags [] := fun h => nomatch h

theorem misled_value_iff {argument value : String} {rest : List String} {f : Flag} {s : Setting}
    (h : classify flags argument = .awaiting f) (hvalue : f.read value = .ok s) :
    Misled flags (argument :: value :: rest) ↔ Misled flags rest ∨ value = "--" ∧ FlagBehind rest := by
  rw [misled_cons_iff, h]
  constructor
  · rintro ⟨value', after, s', heq, -, hrest⟩
    cases heq
    exact hrest
  · exact fun hrest => ⟨value, rest, s, rfl, hvalue, hrest⟩

-- A flag is no positional, so a line of positionals misleads nobody.
theorem exists_not_positional_of_misled {arguments : List String} (h : Misled flags arguments) :
    ∃ other ∈ arguments, ¬ IsPositional other := by
  have hflag : ∀ {argument : String}, classify flags argument ≠ .positional → ¬ IsPositional argument :=
    fun hclass hpositional => hclass (classify_eq_positional_iff.mpr hpositional)
  cases h with
  | here h => exact ⟨_, List.mem_cons_self, hflag (by simp [h])⟩
  | setting h => exact ⟨_, List.mem_cons_self, hflag (by simp [h])⟩
  | value h => exact ⟨_, List.mem_cons_self, hflag (by simp [h])⟩
  | positional _ hrest =>
    obtain ⟨other, hmem, hother⟩ := exists_not_positional_of_misled hrest
    exact ⟨other, List.mem_cons_of_mem _ hmem, hother⟩

-- A positional behind the value `--` is where the two readings part: one stops, the other goes on.
theorem readLine_dashes_iff {rest : List String}
    (ih : readLine flags true none false rest = readAnywhere flags none rest ↔ ¬ Misled flags rest) :
    readLine flags true none true rest = readAnywhere flags none rest ↔ ¬ (Misled flags rest ∨ FlagBehind rest) := by
  cases rest with
  | nil =>
    rw [readLine_dashes (by simp), ih]
    simp [FlagBehind]
  | cons next others =>
    by_cases hnext : IsPositional next
    · have hclass : classify flags next = .positional := classify_eq_positional_iff.mpr hnext
      have hline : (.ok ⟨[], next :: others⟩ : Except FlagError Line) =
          (Except.ok ⟨[], others⟩).map (Line.add next) := rfl
      rw [readLine_stop hclass, readAnywhere_positional hclass, hline, map_eq_map_iff Line.add_inj, eq_comm,
        readAnywhere_eq_positionals_iff]
      constructor
      · rintro hall (hmisled | ⟨-, other, hmem, hother⟩)
        · rw [misled_cons_iff, hclass] at hmisled
          obtain ⟨other, hmem, hother⟩ := exists_not_positional_of_misled hmisled
          exact hother (hall other hmem)
        · exact hother (hall other hmem)
      · intro hnone other hmem
        apply Decidable.byContradiction
        exact fun hother => hnone (.inr ⟨hnext, other, hmem, hother⟩)
    · have hhead : ∀ argument ∈ (next :: others).head?, ¬ IsPositional argument := by
        rintro _ ⟨⟩
        exact hnext
      rw [readLine_dashes hhead, ih]
      simp [FlagBehind, hnext]

/-- The reader follows the rule unless it is misled. -/
theorem readMixed_eq_readAnywhere_iff (arguments : List String) :
    readMixed flags arguments = readAnywhere flags none arguments ↔ ¬ Misled flags arguments := by
  unfold readMixed
  induction arguments using line_induction flags with
  | nil => exact iff_of_true (by rw [readLine, readAnywhere]) not_misled_nil
  | wrong h => exact iff_of_true (by rw [readLine, readAnywhere, h]) (by simp [misled_cons_iff, h])
  | separator h => exact iff_of_true (by rw [readLine, readAnywhere, h]) (by simp [misled_cons_iff, h])
  | setting h ih =>
    rw [readLine_setting h, readAnywhere_setting h, map_eq_map_iff Line.set_inj, ih, misled_cons_iff, h]
  | positional h ih =>
    rw [readLine_positional h, readAnywhere_positional h, map_eq_map_iff Line.add_inj, ih, misled_cons_iff, h]
  | missing h =>
    refine iff_of_true ?_ (by simp [misled_cons_iff, h])
    rw [readLine, readAnywhere, h]
    dsimp only
    rw [readLine, readAnywhere]
  | refused h hvalue =>
    refine iff_of_true ?_ ?_
    · rw [readLine, readAnywhere, h]
      dsimp only
      rw [readLine, readAnywhere, hvalue]
    · rw [misled_cons_iff, h]
      rintro ⟨value, after, s, heq, hread, -⟩
      cases heq
      rw [hvalue] at hread
      cases hread
  | @value argument value rest f s h hvalue ih =>
    rw [readLine_value h hvalue, readAnywhere_value h hvalue, map_eq_map_iff Line.set_inj, misled_value_iff h hvalue]
    by_cases hdashes : value = "--"
    · rw [beq_iff_eq.mpr hdashes, readLine_dashes_iff ih]
      simp only [hdashes, true_and]
    · rw [beq_eq_false_iff_ne.mpr hdashes, ih]
      simp only [hdashes, false_and, or_false]

/-! ## What the rule says -/

theorem readAnywhere_passed {before : List String} {l : Line} (h : Passed flags before l) {rest : List String}
    {l' : Line} (hrest : readAnywhere flags none rest = .ok l') :
    readAnywhere flags none (before ++ rest) =
      .ok ⟨l.settings ++ l'.settings, l.positionals ++ l'.positionals⟩ := by
  induction h with
  | nil => exact hrest
  | setting h _ ih =>
    rw [List.cons_append, readAnywhere_setting h, ih]
    rfl
  | value h hvalue _ ih =>
    rw [List.cons_append, List.cons_append, readAnywhere_value h hvalue, ih]
    rfl
  | positional h _ ih =>
    rw [List.cons_append, readAnywhere_positional (classify_eq_positional_iff.mpr h), ih]
    rfl

theorem readAnywhere_all {arguments : List String} {l : Line} (h : Passed flags arguments l) :
    readAnywhere flags none arguments = .ok l := by
  have hend : readAnywhere flags none [] = .ok ⟨[], []⟩ := by rw [readAnywhere]
  have hread := readAnywhere_passed h hend
  rwa [List.append_nil, List.append_nil, List.append_nil] at hread

theorem readAnywhere_separator {before after : List String} {l : Line} (h : Passed flags before l) :
    readAnywhere flags none (before ++ "--" :: after) = .ok ⟨l.settings, l.positionals ++ after⟩ := by
  have hend : readAnywhere flags none ("--" :: after) = .ok ⟨[], after⟩ := by
    rw [readAnywhere]
    rfl
  have hread := readAnywhere_passed h hend
  rwa [List.append_nil] at hread

/-! ## What a misled reader does -/

/-- The flags end behind a `--` that is the value of one: all that follows is taken for positionals. -/
def StopsAtValue (flags : List Flag) (arguments : List String) : Prop :=
  ∃ before after l, arguments = before ++ "--" :: after ∧ Passed flags (before ++ ["--"]) l ∧
    readMixed flags arguments = .ok ⟨l.settings, l.positionals ++ after⟩

theorem stopsAtValue_here {argument next : String} {rest : List String} {f : Flag} {s : Setting}
    (h : classify flags argument = .awaiting f) (hvalue : f.read "--" = .ok s) (hnext : IsPositional next) :
    StopsAtValue flags (argument :: "--" :: next :: rest) := by
  refine ⟨[argument], next :: rest, _, rfl, .value h hvalue .nil, ?_⟩
  unfold readMixed
  rw [readLine_value h hvalue, beq_self_eq_true, readLine_stop (classify_eq_positional_iff.mpr hnext)]
  rfl

-- What is read before, be it a flag or a positional, does not reach the positionals at the end.
theorem StopsAtValue.behind {tokens rest : List String} {g : Line → Line} (h : StopsAtValue flags rest)
    (hpassed : ∀ {before l}, Passed flags before l → Passed flags (tokens ++ before) (g l))
    (hread : readMixed flags (tokens ++ rest) = (readMixed flags rest).map g)
    (hg : ∀ l after, g ⟨l.settings, l.positionals ++ after⟩ = ⟨(g l).settings, (g l).positionals ++ after⟩) :
    StopsAtValue flags (tokens ++ rest) := by
  obtain ⟨before, after, l, rfl, hbefore, hrest⟩ := h
  refine ⟨tokens ++ before, after, g l, (List.append_assoc ..).symm, ?_, ?_⟩
  · rw [List.append_assoc]
    exact hpassed hbefore
  · rw [hread, hrest, ← hg]
    rfl

theorem stopsAtValue_of_misled {arguments : List String} (h : Misled flags arguments) :
    StopsAtValue flags arguments := by
  induction h with
  | @here argument rest f s h hvalue hrest =>
    cases rest with
    | nil => exact absurd hrest id
    | cons next others => exact stopsAtValue_here h hvalue hrest.1
  | @setting argument rest s h _ ih =>
    show StopsAtValue flags ([argument] ++ rest)
    exact ih.behind (.setting h) (readLine_setting h) fun _ _ => rfl
  | @positional argument rest h _ ih =>
    show StopsAtValue flags ([argument] ++ rest)
    exact ih.behind (.positional h) (readLine_positional (classify_eq_positional_iff.mpr h)) fun _ _ => rfl
  | @value argument value rest f s h hvalue _ ih =>
    -- A positional behind a value `--` stops the reader already here, before the place that misleads it.
    by_cases hstop : value = "--" ∧ ∃ next others, rest = next :: others ∧ IsPositional next
    · obtain ⟨rfl, next, others, rfl, hnext⟩ := hstop
      exact stopsAtValue_here h hvalue hnext
    · have hgoes : readLine flags true none (value == "--") rest = readMixed flags rest := by
        by_cases hdashes : value = "--"
        · rw [beq_iff_eq.mpr hdashes]
          refine readLine_dashes fun next hhead hnext => ?_
          obtain ⟨others, heq⟩ := List.head?_eq_some_iff.mp hhead
          exact hstop ⟨hdashes, next, others, heq, hnext⟩
        · rw [beq_eq_false_iff_ne.mpr hdashes, readMixed]
      show StopsAtValue flags ([argument, value] ++ rest)
      refine ih.behind (.value h hvalue) ?_ fun _ _ => rfl
      rw [← hgoes]
      exact readLine_value h hvalue

/-! ## The end of the flags -/

/-- By the rule, a line without a `--` of its own is read to its end, and a `--` where a flag or a positional may stand
makes all that follows positional.  The reader follows the rule exactly when it is not misled; when it is, a value `--`
ends the flags. -/
theorem dashes_end_flags_iff (flags : List Flag) (arguments : List String) :
    (∀ l, Passed flags arguments l → readAnywhere flags none arguments = .ok l) ∧
    (∀ before after l, arguments = before ++ "--" :: after → Passed flags before l →
      readAnywhere flags none arguments = .ok ⟨l.settings, l.positionals ++ after⟩) ∧
    (readMixed flags arguments = readAnywhere flags none arguments ↔ ¬ Misled flags arguments) ∧
    (Misled flags arguments → StopsAtValue flags arguments) := by
  refine ⟨fun l h => readAnywhere_all h, ?_, readMixed_eq_readAnywhere_iff arguments, stopsAtValue_of_misled⟩
  rintro before after l rfl h
  exact readAnywhere_separator h

theorem classify_solc : classify commonFlags "-solc" = .awaiting ⟨"solc", .text⟩ := by decide +kernel

-- The value `--` stands before a flag; the second `--` stands for itself.
theorem dashes_end_flags_iff_twoDashes :
    Passed commonFlags ["-solc", "--", "-v", "X.sol"]
      ⟨[⟨"solc", .text "--"⟩, ⟨"v", .truth true⟩], ["X.sol"]⟩ ∧
    ¬ Misled commonFlags ["-solc", "--", "-v", "X.sol", "--", "-log"] ∧
    readMixed commonFlags ["-solc", "--", "-v", "X.sol", "--", "-log"] =
      .ok ⟨[⟨"solc", .text "--"⟩, ⟨"v", .truth true⟩], ["X.sol", "-log"]⟩ := by
  have hpassed : Passed commonFlags ["-solc", "--", "-v", "X.sol"]
      ⟨[⟨"solc", .text "--"⟩, ⟨"v", .truth true⟩], ["X.sol"]⟩ :=
    .value classify_solc rfl <| .setting (by decide +kernel) <| .positional (by decide) .nil
  have hmisled : ¬ Misled commonFlags ["-solc", "--", "-v", "X.sol", "--", "-log"] := by
    have hverbose : classify commonFlags "-v" = .setting ⟨"v", .truth true⟩ := by decide +kernel
    have hpositional : classify commonFlags "X.sol" = .positional := by decide +kernel
    have hseparator : classify commonFlags "--" = .separator := by decide +kernel
    rw [misled_value_iff classify_solc rfl, misled_cons_iff, hverbose, misled_cons_iff, hpositional, misled_cons_iff,
      hseparator]
    rintro (h | ⟨-, hnext, -⟩)
    · exact h
    · exact absurd hnext (by decide)
  obtain ⟨-, hrule, hiff, -⟩ := dashes_end_flags_iff commonFlags ["-solc", "--", "-v", "X.sol", "--", "-log"]
  refine ⟨hpassed, hmisled, ?_⟩
  rw [hiff.mpr hmisled]
  exact hrule _ _ _ rfl hpassed

/-- A line without a `--` of its own whose `-v` is taken for a positional. -/
theorem readMixed_stops_at_value :
    Passed commonFlags ["-solc", "--", "X.sol", "-v", "in", "out"]
      ⟨[⟨"solc", .text "--"⟩, ⟨"v", .truth true⟩], ["X.sol", "in", "out"]⟩ ∧
    readMixed commonFlags ["-solc", "--", "X.sol", "-v", "in", "out"] =
      .ok ⟨[⟨"solc", .text "--"⟩], ["X.sol", "-v", "in", "out"]⟩ := by
  constructor
  · exact .value classify_solc rfl <| .positional (by decide) <| .setting (by decide +kernel) <|
      .positional (by decide) <| .positional (by decide) .nil
  · rw [readMixed, readLine_value classify_solc rfl, beq_self_eq_true, readLine_stop (by decide +kernel)]
    rfl

end SolidityAst.Cli
