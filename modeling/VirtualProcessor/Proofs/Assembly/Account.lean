import VirtualProcessor.Assembly.Resolver
import VirtualProcessor.Proofs.Assembly.Expansion
import VirtualProcessor.Proofs.Assembly.Passes

/-!
# Every line of a source is accounted for

A line of an expanded source has one of six roles (`Role`). `Plays` says for each of them, without regard to the
others, what makes a line play it. No line plays two (`Plays.roleAt_eq`), for what directives, labels and
statements start and end with tells them apart; in a source that assembles every line plays one
(`exists_plays`). So nothing of a source is lost on its way through the passes, and nothing is added but a
`ret` at the end (`assemble_accounts`).
-/

namespace VirtualProcessor.Assembly

/-! ## Roles -/

/-- What a line of an expanded source is there for. -/
inductive Role where
  | blank
  | inclusion (i : Inclusion)
  | definition (a : Alias)
  | requirement (r : Requirement)
  | label (name : String)
  | statement (i : Instruction)
deriving DecidableEq, Repr

def Role.instruction? : Role → Option Instruction
  | statement i => some i
  | _ => none

/-- The words of a line with the aliases of the whole source replaced. -/
def wordsIn (expanded : List Line) (l : Line) : List String :=
  Alias.replaceAll (aliasesAfter [] expanded) l.raw

/-- The line with aliases and labels replaced. -/
def namedIn (expanded : List Line) (l : Line) : Line :=
  Line.named (labelEntries 0 (statedLines expanded)) ⟨l.raw, wordsIn expanded l, false⟩

/-- What makes line `k` of an expanded source play a role. -/
inductive Plays (resolver : Option Resolver) (expanded : List Line) (k : Nat) (l : Line) : Role → Prop
  | blank (h : l.raw = []) : Plays resolver expanded k l .blank
  /-- The line asks for a file; it was answered, and the lines of the file stand behind it. -/
  | inclusion {i : Inclusion} {r : Resolver} {source : String} (h : Inclusion.ofWords? l.raw = some i)
      (hr : resolver = some r)
      (hsource : (r.find (Expands.inclusionsIn (expanded.take k)) i.name).result = .ok source)
      (hlines : ((splitLines source).map wordsOf).Sublist ((expanded.drop (k + 1)).map Line.raw)) :
    Plays resolver expanded k l (.inclusion i)
  /-- The line defines an alias, read with the aliases that are defined in front of it. -/
  | definition {a : Alias}
      (h : Alias.ofWords? (Alias.replaceAll (aliasesAfter [] (expanded.take k)) l.raw) = some a) :
    Plays resolver expanded k l (.definition a)
  | requirement {r : Requirement} (h : Requirement.ofWords? (wordsIn expanded l) = some r) :
    Plays resolver expanded k l (.requirement r)
  | label {name : String} (h : labelName? (textOf (wordsIn expanded l)) = some name) :
    Plays resolver expanded k l (.label name)
  /-- The line can be read as an instruction once aliases and labels are replaced. -/
  | statement {i : Instruction}
      (h : (readLine Family.standard (k + 1) (namedIn expanded l)).result = .ok i) :
    Plays resolver expanded k l (.statement i)

/-! ## What tells the roles apart -/

theorem valid_aliases (lines : List Line) : ∀ a ∈ aliasesAfter [] lines, a.Valid :=
  valid_of_mem_aliasesAfter (by simp) lines

/-- The word of a directive is neither a name nor an operand. -/
theorem directiveWords_spec :
    ∀ d ∈ directiveWords, Alias.isName d.toList = false ∧ Operand.ofWord? d = none := by
  decide +kernel

/-- The word of a directive is not replaced, and no other word by it. -/
theorem head_replaceAll_iff (lines : List Line) {d : String} (hd : d ∈ directiveWords) {raw : List String} :
    (Alias.replaceAll (aliasesAfter [] lines) raw).head? = some d ↔ raw.head? = some d := by
  obtain ⟨hname, hoperand⟩ := directiveWords_spec d hd
  rw [Alias.replaceAll_eq_map, List.head?_map, Option.map_eq_some_iff]
  constructor
  · rintro ⟨w, hw, hwd⟩
    rw [hw, (Alias.replaceWord_eq_iff (valid_aliases lines) hname hoperand).mp hwd]
  · intro h
    exact ⟨d, h, (Alias.replaceWord_eq_iff (valid_aliases lines) hname hoperand).mpr rfl⟩

theorem head_of_inclusion {words : List String} {i : Inclusion} (h : Inclusion.ofWords? words = some i) :
    ∃ d ∈ inclusionWords, words.head? = some d := by
  unfold Inclusion.ofWords? at h
  split at h
  · rename_i directive first others
    split at h
    · rename_i kind hkind
      refine ⟨directive, ?_, rfl⟩
      unfold Inclusion.kind? at hkind
      split at hkind
      · rename_i hd
        rw [hd]
        decide
      · split at hkind
        · rename_i hd
          rw [hd]
          decide
        · cases hkind
    · cases h
  · cases h

theorem words_of_definition {words : List String} {a : Alias} (h : Alias.ofWords? words = some a) :
    ∃ d ∈ definitionWords, words = [d, a.name, a.value] := by
  unfold Alias.ofWords? at h
  split at h
  · split at h
    · rename_i hc
      cases h
      exact ⟨_, by simpa [definitionWords] using hc.1, rfl⟩
    · cases h
  · cases h

theorem head_of_requirement {words : List String} {r : Requirement} (h : Requirement.ofWords? words = some r) :
    ∃ d ∈ requirementWords, words.head? = some d := by
  unfold Requirement.ofWords? at h
  split at h
  · split at h
    · rename_i hc
      exact ⟨_, by simpa [requirementWords] using hc, rfl⟩
    · cases h
  · cases h

theorem last_of_operand {w : String} (h : (Operand.ofWord? w).isSome) : w.toList.getLast? ≠ some ':' := by
  intro hlast
  exact absurd (Operand.isOperandChar_of_ofWord? h ':' (List.mem_of_getLast? hlast)) (by decide)

theorem last_of_isName {w : String} (h : Alias.isName w.toList = true) : w.toList.getLast? ≠ some ':' := by
  intro hlast
  have hmem := List.mem_of_getLast? hlast
  unfold Alias.isName at h
  split at h
  · rename_i cs hw
    rw [hw] at hmem
    rcases List.mem_cons.mp hmem with hc | hc
    · cases hc
    · simp only [Bool.and_eq_true, List.all_eq_true] at h
      exact absurd (h.2 ':' hc) (by decide)
  · cases h

/-- A word that some aliases make an operand does not end like a label, whatever aliases are replaced in it. -/
theorem last_of_replaceWord (lines lines' : List Line) {w : String}
    (h : (Operand.ofWord? (Alias.replaceWord (aliasesAfter [] lines) w)).isSome) :
    (Alias.replaceWord (aliasesAfter [] lines') w).toList.getLast? ≠ some ':' := by
  obtain hsame | ⟨-, hoperand⟩ := Alias.replaceWord_eq_or (valid_aliases lines') w
  · rw [hsame]
    obtain hw | ⟨hname, -⟩ := Alias.replaceWord_eq_or (valid_aliases lines) w
    · rw [hw] at h
      exact last_of_operand h
    · exact last_of_isName hname
  · exact last_of_operand hoperand

/-! ## Labels and statements -/

section

variable {expanded : List Line} {k : Nat} {l : Line}

/-- Of the words of directives only `alias` can stand in front of a label. -/
theorem head_of_label {name d : String} (h : labelName? (textOf (wordsIn expanded l)) = some name)
    (hd : d ∈ directiveWords) (hhead : l.raw.head? = some d) : d = "alias" := by
  have hwords : (wordsIn expanded l).head? = some d := (head_replaceAll_iff expanded hd).mpr hhead
  obtain ⟨w, hw, c, hc, hstart⟩ := first_of_labelName? h
  obtain rfl : d = w := Option.some.inj (hwords.symm.trans hw)
  have hfirst : ∀ d ∈ directiveWords, d = "alias" ∨
      d.toList.head? = some '.' ∨ d.toList.head? = some '@' := by decide +kernel
  rcases hfirst d hd with hd | hd | hd
  · exact hd
  · rw [hd] at hc
    cases hc
    exact absurd hstart (by decide)
  · rw [hd] at hc
    cases hc
    exact absurd hstart (by decide)

/-- A label is no definition, for a definition ends in an operand. -/
theorem definition_of_label {name : String} (h : labelName? (textOf (wordsIn expanded l)) = some name)
    (lines : List Line) : Alias.ofWords? (Alias.replaceAll (aliasesAfter [] lines) l.raw) = none := by
  cases ha : Alias.ofWords? (Alias.replaceAll (aliasesAfter [] lines) l.raw) with
  | none => rfl
  | some a =>
    exfalso
    obtain ⟨d, -, hwords⟩ := words_of_definition ha
    have hvalue := (Alias.valid_of_ofWords? ha).value
    obtain ⟨w, hw, hcolon⟩ := last_of_labelName? h
    rw [Alias.replaceAll_eq_map] at hwords
    have hlast : l.raw.getLast?.map (Alias.replaceWord (aliasesAfter [] lines)) = some a.value := by
      rw [← List.getLast?_map, hwords]
      rfl
    obtain ⟨v, hv, hva⟩ := Option.map_eq_some_iff.mp hlast
    rw [wordsIn, Alias.replaceAll_eq_map, List.getLast?_map, hv] at hw
    cases hw
    rw [← hva] at hvalue
    exact last_of_replaceWord lines expanded hvalue hcolon

/-- What is read as an instruction: the words themselves, or with the number of a label in the second place. -/
theorem words_namedIn (expanded : List Line) (l : Line) :
    (namedIn expanded l).words = wordsIn expanded l ∨
      ∃ word name rest number, wordsIn expanded l = word :: name :: rest ∧
        isIdentifier name.toList = true ∧ (namedIn expanded l).words = word :: number :: rest := by
  unfold namedIn Line.named
  split
  · rename_i number hnumber
    obtain ⟨name, hname, -⟩ := Option.bind_eq_some_iff.mp hnumber
    obtain ⟨-, hidentifier, -, word, rest, hwords, -⟩ := Line.target?_eq_some_iff.mp hname
    have hwords : wordsIn expanded l = word :: name :: rest := hwords
    refine .inr ⟨word, name, rest, toString number.toNat, hwords, hidentifier, ?_⟩
    rw [Line.retarget]
    simp only [hwords]
  · exact .inl rfl

/-- The words of a statement start with a word of the table and end unlike a label. -/
theorem words_of_statement {i : Instruction}
    (h : (readLine Family.standard (k + 1) (namedIn expanded l)).result = .ok i) :
    ∃ word operands, wordsIn expanded l = word :: operands ∧ word ∉ directiveWords ∧
      labelName? (textOf (wordsIn expanded l)) = none := by
  obtain ⟨s, hs, -⟩ := readLine_eq_ok_iff.mp h
  obtain ⟨word, operands, f, hwords, hf, hfill⟩ := statementOf?_standard_iff.mp hs
  obtain ⟨hmem, rfl, hlength⟩ := matches_of_find? hf
  obtain ⟨hdirective, hcolon⟩ := standardForms_word f hmem
  obtain hsame | ⟨word, name, rest, number, hraw, hname, hnumber⟩ := words_namedIn expanded l
  · rw [hsame] at hwords
    refine ⟨f.word, operands, hwords, hdirective, ?_⟩
    cases hl : labelName? (textOf (wordsIn expanded l)) with
    | none => rfl
    | some name =>
      exfalso
      obtain ⟨w, hw, hlast⟩ := last_of_labelName? hl
      rw [hwords] at hw
      rcases List.mem_cons.mp (List.mem_of_getLast? hw) with rfl | hw
      · exact hcolon hlast
      · exact last_of_operand (Form.ofWord?_isSome_of_fill hlength hfill w hw) hlast
  · obtain ⟨rfl, -⟩ := List.cons.inj (hnumber.symm.trans hwords)
    refine ⟨f.word, name :: rest, hraw, hdirective, ?_⟩
    rw [hraw]
    exact labelName?_of_second rest hname

theorem head_of_statement {i : Instruction} {d : String}
    (h : (readLine Family.standard (k + 1) (namedIn expanded l)).result = .ok i) (hd : d ∈ directiveWords) :
    l.raw.head? ≠ some d := by
  intro hhead
  obtain ⟨word, operands, hwords, hword, -⟩ := words_of_statement h
  have hwords' : (wordsIn expanded l).head? = some d := (head_replaceAll_iff expanded hd).mpr hhead
  rw [hwords] at hwords'
  cases hwords'
  exact hword hd

end

/-! ## One role for each line -/

/-- The role of a line: of what it could be, the first in the order of the passes. A line that is nothing of all
this counts as blank. -/
def roleAt (expanded : List Line) (k : Nat) (l : Line) : Role :=
  if l.raw = [] then .blank
  else
    match Inclusion.ofWords? l.raw with
    | some i => .inclusion i
    | none =>
      match Alias.ofWords? (Alias.replaceAll (aliasesAfter [] (expanded.take k)) l.raw) with
      | some a => .definition a
      | none =>
        match Requirement.ofWords? (wordsIn expanded l) with
        | some r => .requirement r
        | none =>
          match labelName? (textOf (wordsIn expanded l)) with
          | some name => .label name
          | none =>
            match (readLine Family.standard (k + 1) (namedIn expanded l)).result with
            | .ok i => .statement i
            | .error _ => .blank

section

variable {expanded : List Line} {k : Nat} {l : Line}

theorem raw_ne_nil {d : String} (h : l.raw.head? = some d) : l.raw ≠ [] := by
  intro hraw
  rw [hraw] at h
  cases h

/-- What needs a certain word at the start of a line is not there if the line starts otherwise. -/
theorem eq_none_of_head {α : Type} {found : Option α} {words : List String}
    (h : ∀ x, found = some x → ∃ d ∈ words, l.raw.head? = some d)
    (hother : ∀ d ∈ words, l.raw.head? ≠ some d) : found = none := by
  cases found with
  | none => rfl
  | some x =>
    obtain ⟨d, hd, hhead⟩ := h x rfl
    exact absurd hhead (hother d hd)

theorem raw_of_definition (lines : List Line) (a : Alias)
    (h : Alias.ofWords? (Alias.replaceAll (aliasesAfter [] lines) l.raw) = some a) :
    ∃ d ∈ definitionWords, l.raw.head? = some d := by
  obtain ⟨d, hd, hwords⟩ := words_of_definition h
  have hdirective : d ∈ directiveWords := List.mem_append_left _ (List.mem_append_right _ hd)
  exact ⟨d, hd, (head_replaceAll_iff lines hdirective).mp (by rw [hwords]; rfl)⟩

theorem raw_of_requirement (r : Requirement) (h : Requirement.ofWords? (wordsIn expanded l) = some r) :
    ∃ d ∈ requirementWords, l.raw.head? = some d := by
  obtain ⟨d, hd, hhead⟩ := head_of_requirement h
  have hdirective : d ∈ directiveWords := List.mem_append_right _ hd
  exact ⟨d, hd, (head_replaceAll_iff expanded hdirective).mp hhead⟩

/-- No two kinds of directives start with the same word. -/
theorem directives_disjoint :
    (∀ d ∈ definitionWords, d ∉ inclusionWords) ∧ (∀ d ∈ requirementWords, d ∉ inclusionWords) ∧
      (∀ d ∈ requirementWords, d ∉ definitionWords) ∧ "alias" ∉ inclusionWords ∧
      "alias" ∉ requirementWords := by
  decide

theorem ne_of_head {d : String} {words : List String} (hhead : l.raw.head? = some d) (hd : d ∉ words) :
    ∀ d' ∈ words, l.raw.head? ≠ some d' := by
  intro d' hd' h
  cases hhead.symm.trans h
  exact hd hd'

/-- A line that plays a role has that role and no other. -/
theorem Plays.roleAt_eq {resolver : Option Resolver} {role : Role} (h : Plays resolver expanded k l role) :
    roleAt expanded k l = role := by
  unfold roleAt
  cases h with
  | blank h => rw [if_pos h]
  | inclusion h =>
    obtain ⟨d, -, hhead⟩ := head_of_inclusion h
    rw [if_neg (raw_ne_nil hhead), h]
  | definition h =>
    obtain ⟨d, hd, hhead⟩ := raw_of_definition _ _ h
    rw [if_neg (raw_ne_nil hhead),
      eq_none_of_head (fun _ => head_of_inclusion) (ne_of_head hhead (directives_disjoint.1 d hd)), h]
  | requirement h =>
    obtain ⟨d, hd, hhead⟩ := raw_of_requirement _ h
    rw [if_neg (raw_ne_nil hhead),
      eq_none_of_head (fun _ => head_of_inclusion) (ne_of_head hhead (directives_disjoint.2.1 d hd)),
      eq_none_of_head (raw_of_definition _) (ne_of_head hhead (directives_disjoint.2.2.1 d hd)), h]
  | label h =>
    have hraw : l.raw ≠ [] := by
      intro hraw
      obtain ⟨w, hw, -⟩ := first_of_labelName? h
      rw [wordsIn, Alias.replaceAll_eq_map, hraw] at hw
      cases hw
    have hhead : ∀ d ∈ directiveWords, d ≠ "alias" → l.raw.head? ≠ some d := fun d hd hne hhead =>
      hne (head_of_label h hd hhead)
    have hinclusion : Inclusion.ofWords? l.raw = none := by
      refine eq_none_of_head (fun _ => head_of_inclusion) fun d hd => hhead d ?_ ?_
      · exact List.mem_append_left _ (List.mem_append_left _ hd)
      · rintro rfl
        exact directives_disjoint.2.2.2.1 hd
    have hrequirement : Requirement.ofWords? (wordsIn expanded l) = none := by
      refine eq_none_of_head raw_of_requirement fun d hd => hhead d ?_ ?_
      · exact List.mem_append_right _ hd
      · rintro rfl
        exact directives_disjoint.2.2.2.2 hd
    rw [if_neg hraw, hinclusion, definition_of_label h, hrequirement, h]
  | statement h =>
    obtain ⟨word, operands, hwords, -, hlabel⟩ := words_of_statement h
    have hraw : l.raw ≠ [] := by
      intro hraw
      rw [wordsIn, Alias.replaceAll_eq_map, hraw] at hwords
      cases hwords
    have hinclusion : Inclusion.ofWords? l.raw = none :=
      eq_none_of_head (fun _ => head_of_inclusion) fun d hd =>
        head_of_statement h (List.mem_append_left _ (List.mem_append_left _ hd))
    have hdefinition : Alias.ofWords? (Alias.replaceAll (aliasesAfter [] (expanded.take k)) l.raw) = none :=
      eq_none_of_head (raw_of_definition _) fun d hd =>
        head_of_statement h (List.mem_append_left _ (List.mem_append_right _ hd))
    have hrequirement : Requirement.ofWords? (wordsIn expanded l) = none :=
      eq_none_of_head raw_of_requirement fun d hd => head_of_statement h (List.mem_append_right _ hd)
    rw [if_neg hraw, hinclusion, hdefinition, hrequirement, hlabel, h]

end

/-! ## A role for each line -/

/-- The roles of all lines. -/
def rolesOf (expanded : List Line) : List Role := expanded.mapIdx (roleAt expanded)

theorem length_rolesOf (expanded : List Line) : (rolesOf expanded).length = expanded.length :=
  List.length_mapIdx

theorem getElem?_rolesOf (expanded : List Line) (k : Nat) :
    (rolesOf expanded)[k]? = expanded[k]?.map (roleAt expanded k) :=
  List.getElem?_mapIdx

theorem isStatement_of_consumed {s : Line} (h : s.consumed = true) : s.isStatement = false := by
  rw [Line.isStatement, h]
  rfl

theorem consumed_required {s : Line} (h : s.consumed = true) : s.required.consumed = true := by
  rw [Line.required, h]
  rfl

section

variable {resolver : Option Resolver} {pending : List (List Char)} {expanded : List Line} {k : Nat} {l : Line}

/-- What becomes of a line up to the labels: it is dealt with and plays a role, or it is left with its aliases
replaced. -/
theorem stated_cases (h : Expands resolver 0 pending expanded) (hk : expanded[k]? = some l) :
    ∃ s, (statedLines expanded)[k]? = some s ∧
      (s.isStatement = false ∧ (∃ role, Plays resolver expanded k l role ∧ role.instruction? = none) ∨
        s = ⟨l.raw, wordsIn expanded l, false⟩) := by
  refine ⟨(l.aliased (aliasesAfter [] expanded) (aliasesAfter [] (expanded.take k))).required,
    by rw [getElem?_statedLines, hk]; rfl, ?_⟩
  have hl : l = .ofRaw l.raw := h.eq_ofRaw l (List.mem_of_getElem? hk)
  have hwords : l.words = l.raw := congrArg Line.words hl
  have hconsumed : l.consumed = (l.raw.isEmpty || isInclusion l.raw) := congrArg Line.consumed hl
  by_cases hblank : l.raw = []
  · have hc : l.consumed = true := by rw [hconsumed, hblank]; rfl
    refine .inl ⟨isStatement_of_consumed (consumed_required ?_), .blank, .blank hblank, rfl⟩
    rw [Line.aliased, if_pos hc, hc]
  cases hi : Inclusion.ofWords? l.raw with
  | some i =>
    obtain ⟨r, source, hr, hsource, hsub⟩ := h.answered (eq_take_append_cons_drop hk) hi
    rw [Nat.zero_add] at hsource
    have hc : l.consumed = true := by rw [hconsumed, isInclusion, hi]; simp
    refine .inl ⟨isStatement_of_consumed (consumed_required ?_), _, .inclusion hi hr hsource hsub, rfl⟩
    rw [Line.aliased, if_pos hc, hc]
  | none =>
    have hc : l.consumed = false := by
      rw [hconsumed, isInclusion, hi]
      simpa using hblank
    have hc' : ¬ l.consumed = true := by simp [hc]
    have hdefinition : l.definition? (aliasesAfter [] (expanded.take k)) =
        Alias.ofWords? (Alias.replaceAll (aliasesAfter [] (expanded.take k)) l.raw) := by
      rw [Line.definition?, if_neg hc', hwords]
    rw [Line.aliased, if_neg hc', hdefinition]
    cases ha : Alias.ofWords? (Alias.replaceAll (aliasesAfter [] (expanded.take k)) l.raw) with
    | some a =>
      refine .inl ⟨isStatement_of_consumed (consumed_required ?_), _, .definition ha, rfl⟩
      rfl
    | none =>
      have hline : (⟨l.raw, Alias.replaceAll (aliasesAfter [] expanded) l.words, l.consumed⟩ : Line) =
          ⟨l.raw, wordsIn expanded l, false⟩ := by
        rw [hwords, hc]
        rfl
      rw [if_neg (by simp), hline]
      cases hr : Requirement.ofWords? (wordsIn expanded l) with
      | some r =>
        refine .inl ⟨isStatement_of_consumed ?_, _, .requirement hr, rfl⟩
        simp [Line.required, Line.requirement?, hr]
      | none =>
        right
        simp [Line.required, Line.requirement?, hr]

/-- Every line of a source that can be read plays a role, and those that yield instructions are statements. -/
theorem exists_plays {written : List Instruction} (h : Expands resolver 0 pending expanded)
    (hy : Yields Family.standard (labelEntries 0 (statedLines expanded)) 0 (statedLines expanded) written)
    (hk : expanded[k]? = some l) :
    ∃ s role, (statedLines expanded)[k]? = some s ∧ Plays resolver expanded k l role ∧
      (s.isStatement = false ∧ role.instruction? = none ∨
        s.isStatement = true ∧ ∃ i, role = .statement i ∧
          (readLine Family.standard (k + 1)
            (s.named (labelEntries 0 (statedLines expanded)))).result = .ok i) := by
  obtain ⟨s, hs, ⟨hother, role, hrole, hnone⟩ | hleft⟩ := stated_cases h hk
  · exact ⟨s, role, hs, hrole, .inl ⟨hother, hnone⟩⟩
  · refine ⟨s, ?_⟩
    cases hstatement : s.isStatement with
    | true =>
      obtain ⟨i, -, hi⟩ := hy.instruction_at hs hstatement
      rw [Nat.zero_add] at hi
      have hread : (readLine Family.standard (k + 1) (namedIn expanded l)).result = .ok i := by
        rw [namedIn, ← hleft]
        exact hi
      exact ⟨.statement i, hs, .statement hread, .inr ⟨rfl, i, rfl, hi⟩⟩
    | false =>
      cases hlabel : labelName? (textOf (wordsIn expanded l)) with
      | some name => exact ⟨.label name, hs, .label hlabel, .inl ⟨rfl, rfl⟩⟩
      | none =>
        rw [hleft, Line.isStatement, Line.text, hlabel] at hstatement
        cases hstatement

end

/-- The instructions that lines yield are those of the roles they play. -/
theorem Yields.eq_filterMap {families : List Family} {labels : LabelTable} {placed : Nat} {lines : List Line}
    {written : List Instruction} (h : Yields families labels placed lines written) {roles : List Role}
    (hlength : roles.length = lines.length)
    (hroles : ∀ (k : Nat) (s : Line) (role : Role), lines[k]? = some s → roles[k]? = some role →
      s.isStatement = false ∧ role.instruction? = none ∨
        s.isStatement = true ∧ ∃ i, role = .statement i ∧
          (readLine families (placed + k + 1) (s.named labels)).result = .ok i) :
    written = roles.filterMap Role.instruction? := by
  induction h generalizing roles with
  | done =>
    obtain rfl := List.eq_nil_of_length_eq_zero hlength
    rfl
  | other hother _ ih =>
    cases roles with
    | nil => cases hlength
    | cons role roles =>
      have hrest := ih (Nat.succ.inj hlength) fun k s role hk hr => by
        have := hroles (k + 1) s role hk hr
        rwa [Nat.add_comm k 1, ← Nat.add_assoc] at this
      obtain ⟨-, hnone⟩ | ⟨hstatement, -⟩ := hroles 0 _ _ rfl rfl
      · rw [List.filterMap_cons_none hnone]
        exact hrest
      · cases hother.symm.trans hstatement
  | statement hstatement hi _ ih =>
    cases roles with
    | nil => cases hlength
    | cons role roles =>
      have hrest := ih (Nat.succ.inj hlength) fun k s role hk hr => by
        have := hroles (k + 1) s role hk hr
        rwa [Nat.add_comm k 1, ← Nat.add_assoc] at this
      obtain ⟨hother, -⟩ | ⟨-, i, rfl, hread⟩ := hroles 0 _ _ rfl rfl
      · cases hother.symm.trans hstatement
      · cases hi.symm.trans hread
        rw [hrest]
        rfl

/-! ## The account -/

section

variable {resolver : Option Resolver} {pending : List (List Char)} {expanded : List Line}
  {written : List Instruction}

theorem plays_iff {k : Nat} {l : Line} {role : Role} (h : Expands resolver 0 pending expanded)
    (hy : Yields Family.standard (labelEntries 0 (statedLines expanded)) 0 (statedLines expanded) written)
    (hk : expanded[k]? = some l) :
    Plays resolver expanded k l role ↔ (rolesOf expanded)[k]? = some role := by
  rw [getElem?_rolesOf, hk, Option.map_some]
  constructor
  · intro hplays
    rw [hplays.roleAt_eq]
  · intro hrole
    obtain ⟨s, role', -, hplays, -⟩ := exists_plays h hy hk
    obtain rfl : role' = role := hplays.roleAt_eq.symm.trans (Option.some.inj hrole)
    exact hplays

theorem written_eq (h : Expands resolver 0 pending expanded)
    (hy : Yields Family.standard (labelEntries 0 (statedLines expanded)) 0 (statedLines expanded) written) :
    written = (rolesOf expanded).filterMap Role.instruction? := by
  refine hy.eq_filterMap (by rw [length_rolesOf, length_statedLines]) fun k s role hs hrole => ?_
  rw [getElem?_rolesOf] at hrole
  obtain ⟨l, hk, rfl⟩ := Option.map_eq_some_iff.mp hrole
  obtain ⟨s', role, hs', hplays, hcases⟩ := exists_plays h hy hk
  cases hs.symm.trans hs'
  rw [hplays.roleAt_eq, Nat.zero_add]
  exact hcases

/-- A statement carries the number of its line, and there is room behind it for a `ret`. -/
theorem Plays.line_statement {k : Nat} {l : Line} {i : Instruction}
    (h : Plays resolver expanded k l (.statement i)) (hbound : k + 4 < UInt32.size) :
    i.line.toNat = k + 1 ∧ (i.line + 3).toNat = k + 4 := by
  cases h with
  | statement h =>
    obtain ⟨s, -, rfl⟩ := readLine_eq_ok_iff.mp h
    have hline : (UInt32.ofNat (k + 1)).toNat = k + 1 := UInt32.toNat_ofNat_of_lt' (by omega)
    show (UInt32.ofNat (k + 1)).toNat = k + 1 ∧ (UInt32.ofNat (k + 1) + 3).toNat = k + 4
    rw [UInt32.toNat_add, hline]
    exact ⟨rfl, Nat.mod_eq_of_lt hbound⟩

end

/-- Every line of a source that assembles plays exactly one role. The statements among them yield the
instructions of the program in their order, and all that is added is a `ret` at the end, where there is
none. The lines of the instructions are their places in the source and ascend. -/
theorem assemble_accounts {resolver : Option Resolver} {limit : Nat} {source : String} {target : BuildTarget}
    {p : Program} (h : (({ resolver, limit } : Assembler).assemble source target).result = .ok p) :
    ∃ (expanded : List Line) (roles : List Role) (complete : List Instruction),
      (expand resolver limit source).result = .ok expanded ∧ roles.length = expanded.length ∧
      (∀ k l, expanded[k]? = some l → ∀ role, Plays resolver expanded k l role ↔ roles[k]? = some role) ∧
      Completes (roles.filterMap Role.instruction?) complete ∧
      p.instructions.toList = complete.map (instructionFor target) ∧
      (∃ last, p.instructions.back? = some last ∧ last.operation = .ret) ∧
      (expanded.length < UInt32.size - 4 →
        (∀ k i, roles[k]? = some (.statement i) → i.line.toNat = k + 1 ∧ (i.line + 3).toNat = k + 4) ∧
        p.instructions.toList.Pairwise (·.line < ·.line)) := by
  obtain ⟨expanded, written, hexpanded, -, -, hyields, rfl⟩ := assemble_eq_ok_iff.mp h
  have hexpands := expands_of_expand hexpanded
  have hcompletes := completes_missingReturn written
  rw [written_eq hexpands hyields] at hcompletes
  refine ⟨expanded, rolesOf expanded, _, hexpanded, length_rolesOf expanded,
    fun k l hk role => plays_iff hexpands hyields hk, hcompletes, ?_, back_programOf target _ written,
    fun hbound => ⟨fun k i hi => ?_, ?_⟩⟩
  · rw [instructions_programOf, ← written_eq hexpands hyields]
  · have hlt : k < expanded.length := by
      rw [← length_rolesOf]
      exact (List.getElem?_eq_some_iff.mp hi).1
    have hk : expanded[k]? = some expanded[k] := List.getElem?_eq_getElem hlt
    exact ((plays_iff hexpands hyields hk).mpr hi).line_statement (by omega)
  · refine hyields.pairwise_line_programOf ?_
    rw [length_statedLines]
    omega

/-- A source with a line of every kind; the file that it asks for ends up behind its last line. -/
theorem assemble_accounts_every_role :
    let resolver := some (Resolver.ofFiles [("lib", "done: # the end\nmov r0 1")])
    let source := ".include lib\n ; greeting\n.define $x r1\n.require registers 4\nloop:\nmov $x 5\nj loop"
    let p : Program :=
      { target := .release, requirements := { registers := 4 }, instructions := #[
        { operation := .unary .move, destination := some (.register 1),
          left := some (.literal (.ofFloat 5)), line := 6 },
        { operation := .jump false, destination := some (.literal (.ofFloat 6)), line := 7 },
        { operation := .unary .move, destination := some (.register 0),
          left := some (.literal (.ofFloat 1)), line := 9 },
        { operation := .ret, line := 12 }] }
    (({ resolver } : Assembler).assemble source .release).result = .ok p ∧
      ∃ (expanded : List Line) (roles : List Role) (complete : List Instruction),
        (expand resolver 64 source).result = .ok expanded ∧ roles.length = expanded.length ∧
        (∀ k l, expanded[k]? = some l →
          ∀ role, Plays resolver expanded k l role ↔ roles[k]? = some role) ∧
        Completes (roles.filterMap Role.instruction?) complete ∧
        p.instructions.toList = complete.map (instructionFor .release) ∧
        (∃ last, p.instructions.back? = some last ∧ last.operation = .ret) ∧
        (expanded.length < UInt32.size - 4 →
          (∀ k i, roles[k]? = some (.statement i) → i.line.toNat = k + 1 ∧ (i.line + 3).toNat = k + 4) ∧
          p.instructions.toList.Pairwise (·.line < ·.line)) := by
  intro resolver source p
  have h : (({ resolver } : Assembler).assemble source .release).result = .ok p :=
    eq_ok_of_toOption (by decide +kernel)
  exact ⟨h, assemble_accounts h⟩

end VirtualProcessor.Assembly
