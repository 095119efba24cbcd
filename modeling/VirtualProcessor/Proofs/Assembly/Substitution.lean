import Mathlib.Data.List.Nodup
import VirtualProcessor.Proofs.Assembly.Account
import VirtualProcessor.Proofs.Assembly.Cleaning

/-!
# Aliases as one substitution

The names of aliases are replaced one after the other, also in the lines of later definitions, and a definition is
read as the earlier ones have left it. All that comes to one substitution (`Alias.substitute`): the value of an
alias is an operand and so no name, what was put in for a name is never replaced again, and a name that is known
cannot be defined again, since it is not there any more when the second definition is read
(`nodup_aliasesAfter`). So the definitions of a source can be told without the order in which names are replaced
(`Defines`), and so can the lines they leave (`applyAliases_substitutes`).
-/

namespace VirtualProcessor.Assembly

/-! ## Words -/

namespace Alias

/-- What becomes of a word if all names are replaced at once. -/
def substitute (aliases : List Alias) (w : String) : String :=
  ((aliases.find? (·.name = w)).map (·.value)).getD w

theorem substitute_cons (a : Alias) (aliases : List Alias) (w : String) :
    substitute (a :: aliases) w = if w = a.name then a.value else substitute aliases w := by
  by_cases h : w = a.name
  · simp [substitute, h]
  · simp [substitute, h, Ne.symm h]

/-- A word that is no name stays as it was, and a name becomes a value. -/
theorem substitute_cases (aliases : List Alias) (w : String) :
    ((∀ a ∈ aliases, w ≠ a.name) ∧ substitute aliases w = w) ∨
      ∃ a ∈ aliases, w = a.name ∧ substitute aliases w = a.value := by
  unfold substitute
  cases h : aliases.find? (·.name = w) with
  | none => exact .inl ⟨fun a ha e => by simpa [e] using List.find?_eq_none.mp h a ha, rfl⟩
  | some a =>
    have hname : a.name = w := by simpa using List.find?_some h
    exact .inr ⟨a, List.mem_of_find?_eq_some h, hname.symm, rfl⟩

/-- With distinct names it does not matter in which order the aliases stand. -/
theorem substitute_of_mem {aliases : List Alias} (hn : (aliases.map name).Nodup) {a : Alias} (ha : a ∈ aliases) :
    substitute aliases a.name = a.value := by
  obtain ⟨hnone, -⟩ | ⟨b, hb, hname, hvalue⟩ := substitute_cases aliases a.name
  · exact absurd rfl (hnone a ha)
  · rw [hvalue, List.inj_on_of_nodup_map hn ha hb hname]

theorem substitute_perm {aliases others : List Alias} (hp : others.Perm aliases) (hn : (aliases.map name).Nodup)
    (w : String) : substitute others w = substitute aliases w := by
  obtain ⟨hnone, hsame⟩ | ⟨a, ha, rfl, hvalue⟩ := substitute_cases others w
  · obtain ⟨-, hsame'⟩ | ⟨a, ha, hname, -⟩ := substitute_cases aliases w
    · rw [hsame, hsame']
    · exact absurd hname (hnone a (hp.mem_iff.mpr ha))
  · rw [hvalue, substitute_of_mem hn (hp.mem_iff.mp ha)]

section

variable {aliases : List Alias} (hv : ∀ a ∈ aliases, a.Valid)

include hv

/-- No value is a name. -/
theorem value_ne_name {a b : Alias} (ha : a ∈ aliases) (hb : b ∈ aliases) : a.value ≠ b.name := by
  intro h
  have hname := not_isName_of_operand (hv a ha).value
  rw [h, (hv b hb).name] at hname
  cases hname

/-- No name is left. -/
theorem name_notMem_substitute (words : List String) {a : Alias} (ha : a ∈ aliases) :
    a.name ∉ words.map (substitute aliases) := by
  intro h
  obtain ⟨w, -, hw⟩ := List.mem_map.mp h
  obtain ⟨hnone, hsame⟩ | ⟨b, hb, -, hvalue⟩ := substitute_cases aliases w
  · exact hnone a ha (hsame.symm.trans hw)
  · exact value_ne_name hv hb ha (hvalue.symm.trans hw)

/-- A value that was put in is left alone by the aliases that follow. -/
theorem replaceWord_eq_substitute (w : String) : replaceWord aliases w = substitute aliases w := by
  induction aliases with
  | nil => rfl
  | cons a aliases ih =>
    obtain ⟨ha, hrest⟩ := List.forall_mem_cons.mp hv
    show replaceWord aliases (if w = a.name then a.value else w) = _
    rw [substitute_cons]
    split
    · exact replaceWord_of_not_name hrest (not_isName_of_operand ha.value)
    · exact ih hrest

theorem replaceAll_eq_substitute (words : List String) :
    replaceAll aliases words = words.map (substitute aliases) := by
  rw [replaceAll_eq_map]
  exact List.map_congr_left fun w _ => replaceWord_eq_substitute hv w

/-- A name that is known is not defined again. -/
theorem name_notMem_of_ofWords? {words : List String} {a : Alias}
    (h : ofWords? (replaceAll aliases words) = some a) : a.name ∉ aliases.map name := by
  intro hmem
  obtain ⟨b, hb, hname⟩ := List.mem_map.mp hmem
  obtain ⟨d, -, hwords⟩ := words_of_definition h
  have hword : b.name ∈ replaceAll aliases words := by simp [hwords, hname]
  rw [replaceAll_eq_substitute hv] at hword
  exact name_notMem_substitute hv words hb hword

/-- A word without blanks is replaced by one without blanks. -/
theorem blank_notMem_substitute {w : String} (hw : ' ' ∉ w.toList) : ' ' ∉ (substitute aliases w).toList := by
  obtain ⟨-, hsame⟩ | ⟨a, ha, -, hvalue⟩ := substitute_cases aliases w
  · rwa [hsame]
  · rw [hvalue]
    exact fun hc => absurd (Operand.isOperandChar_of_ofWord? (hv a ha).value ' ' hc) (by decide)

theorem substitute_empty : substitute aliases "" = "" := by
  obtain ⟨-, hsame⟩ | ⟨a, ha, hname, -⟩ := substitute_cases aliases ""
  · exact hsame
  · have h := (hv a ha).name
    rw [← hname] at h
    exact absurd h (by decide)

end

end Alias

/-! ## Definitions -/

/-- The aliases that are defined in front of a position. -/
def definedBefore (definitions : List Definition) (position : Nat) : List Alias :=
  (definitions.filter (·.position < position)).map (·.target)

/-- The definitions of a source in the order of their lines. A line that is not dealt with yet is a definition
exactly if it says so once the names that are defined in front of it are replaced, all at once. -/
structure Defines (lines : List Line) (definitions : List Definition) : Prop where
  ascending : definitions.Pairwise (·.position < ·.position)
  mem_iff (d : Definition) : d ∈ definitions ↔ ∃ l, lines[d.position]? = some l ∧ l.consumed = false ∧
    Alias.ofWords? (l.words.map (Alias.substitute (definedBefore definitions d.position))) = some d.target

theorem nodup_aliasesAfter {known : List Alias} (hv : ∀ a ∈ known, a.Valid) (hn : (known.map Alias.name).Nodup)
    (lines : List Line) : ((aliasesAfter known lines).map Alias.name).Nodup := by
  induction lines generalizing known with
  | nil => exact hn
  | cons l rest ih =>
    rw [aliasesAfter_cons]
    cases hd : l.definition? known with
    | none =>
      rw [Option.toList_none, List.append_nil]
      exact ih hv hn
    | some a =>
      refine ih (fun b hb => ?_) ?_
      · rcases List.mem_append.mp hb with hb | hb
        · exact hv b hb
        · obtain rfl := List.mem_singleton.mp hb
          exact valid_of_definition? hd
      · -- The new name is a word of the line as the known aliases have left it.
        have hnew : a.name ∉ known.map Alias.name := by
          unfold Line.definition? at hd
          split at hd
          · cases hd
          · exact Alias.name_notMem_of_ofWords? hv hd
        rw [Option.toList_some, List.map_append, List.map_singleton]
        exact List.nodup_append.mpr ⟨hn, List.nodup_singleton _, by simpa using hnew⟩

theorem mem_findDefinitions_iff {known : List Alias} {position : Nat} {lines : List Line} {d : Definition} :
    d ∈ findDefinitions known position lines ↔ ∃ k l, d.position = position + k ∧ lines[k]? = some l ∧
      l.definition? (aliasesAfter known (lines.take k)) = some d.target := by
  induction lines generalizing known position with
  | nil => simp [findDefinitions]
  | cons l rest ih =>
    rw [findDefinitions_cons, List.mem_append, ih]
    constructor
    · rintro (h | ⟨k, l', hk, hl', hd⟩)
      · obtain ⟨a, ha, rfl⟩ := List.mem_map.mp h
        exact ⟨0, l, rfl, rfl, Option.mem_toList.mp ha⟩
      · exact ⟨k + 1, l', by omega, hl', hd⟩
    · rintro ⟨_ | k, l', hk, hl', hd⟩
      · cases hl'
        obtain rfl : d.position = position := hk
        exact .inl (List.mem_map.mpr ⟨d.target, Option.mem_toList.mpr hd, rfl⟩)
      · exact .inr ⟨k, l', by omega, hl', hd⟩

theorem pairwise_findDefinitions (known : List Alias) (position : Nat) (lines : List Line) :
    (findDefinitions known position lines).Pairwise (·.position < ·.position) := by
  induction lines generalizing known position with
  | nil => exact .nil
  | cons l rest ih =>
    rw [findDefinitions_cons]
    cases l.definition? known with
    | none => exact ih _ _
    | some a => exact .cons (fun d hd => le_of_mem_findDefinitions hd) (ih _ _)

theorem append_definedBefore (known : List Alias) (position k : Nat) (lines : List Line) :
    known ++ definedBefore (findDefinitions known position lines) (position + k) =
      aliasesAfter known (lines.take k) := by
  induction lines generalizing known position k with
  | nil => simp [findDefinitions, definedBefore, aliasesAfter]
  | cons l rest ih =>
    cases k with
    | zero =>
      have hnone : definedBefore (findDefinitions known position (l :: rest)) (position + 0) = [] := by
        rw [definedBefore, List.map_eq_nil_iff, List.filter_eq_nil_iff]
        intro d hd
        simpa using le_of_mem_findDefinitions hd
      rw [hnone, List.append_nil]
      rfl
    | succ k =>
      rw [List.take_succ_cons, aliasesAfter_cons, ← ih _ (position + 1) k, findDefinitions_cons]
      cases l.definition? known with
      | none => simp [Nat.add_assoc, Nat.add_comm 1 k]
      | some a => simp [definedBefore, Nat.add_assoc, Nat.add_comm 1 k]

theorem defines_findDefinitions (lines : List Line) : Defines lines (findDefinitions [] 0 lines) := by
  refine ⟨pairwise_findDefinitions [] 0 lines, fun d => ?_⟩
  have hbefore := append_definedBefore [] 0 d.position lines
  rw [List.nil_append, Nat.zero_add] at hbefore
  rw [mem_findDefinitions_iff, hbefore]
  have hread (l : Line) : l.definition? (aliasesAfter [] (lines.take d.position)) = some d.target ↔
      l.consumed = false ∧
        Alias.ofWords? (l.words.map (Alias.substitute (aliasesAfter [] (lines.take d.position)))) =
          some d.target := by
    rw [Line.definition?, Alias.replaceAll_eq_substitute (valid_aliases _)]
    cases l.consumed <;> simp
  constructor
  · rintro ⟨k, l, hk, hl, hd⟩
    obtain rfl : d.position = k := by omega
    exact ⟨l, hl, (hread l).mp hd⟩
  · rintro ⟨l, hl, hd⟩
    exact ⟨d.position, l, (Nat.zero_add _).symm, hl, (hread l).mpr hd⟩

/-! ## Lines -/

/-- The pieces of the text of a line between its blanks. -/
def Line.tokens (l : Line) : List String := (Text.fields (· == ' ') l.text.toList).map String.ofList

/-- The words of a line are its pieces, but a line without words has an empty piece. -/
theorem Line.tokens_eq (l : Line) (h : ∀ w ∈ l.words, ' ' ∉ w.toList) :
    l.tokens = if l.words = [] then [""] else l.words := by
  unfold Line.tokens Line.text
  split
  · rename_i hnil
    rw [hnil, textOf_nil]
    rfl
  · rename_i hne
    rw [fields_textOf hne h, List.map_map]
    exact (List.map_congr_left fun w _ => String.ofList_toList).trans (List.map_id _)

section

variable (all known : List Alias) (l : Line)

theorem raw_aliased : (l.aliased all known).raw = l.raw := by
  unfold Line.aliased
  split
  · rfl
  · split <;> rfl

theorem consumed_aliased : (l.aliased all known).consumed = (l.consumed || (l.definition? known).isSome) := by
  unfold Line.aliased
  split
  · simp_all
  · split <;> simp_all

theorem aliased_of_consumed (h : l.consumed = true) : l.aliased all known = l := if_pos h

theorem words_aliased (h : (l.aliased all known).consumed = false) :
    (l.aliased all known).words = Alias.replaceAll all l.words := by
  rw [consumed_aliased, Bool.or_eq_false_iff] at h
  simp [Line.aliased, h]

end

section

variable {aliases : List Alias} (hv : ∀ a ∈ aliases, a.Valid) {l l' : Line}
  (hwords : l'.words = l.words.map (Alias.substitute aliases)) (hblank : ∀ w ∈ l.words, ' ' ∉ w.toList)

include hv hwords hblank

/-- Replacing names in the words of a line replaces them in the pieces of its text. -/
theorem tokens_substitute : l'.tokens = l.tokens.map (Alias.substitute aliases) := by
  have hblank' : ∀ w ∈ l'.words, ' ' ∉ w.toList := by
    rw [hwords]
    intro v hmem
    obtain ⟨w, hw, rfl⟩ := List.mem_map.mp hmem
    exact Alias.blank_notMem_substitute hv (hblank w hw)
  rw [l.tokens_eq hblank, l'.tokens_eq hblank', hwords]
  simp only [List.map_eq_nil_iff]
  split
  · rw [List.map_singleton, Alias.substitute_empty hv]
  · rfl

theorem text_substitute : l'.text = textOf (l.tokens.map (Alias.substitute aliases)) := by
  rw [l.tokens_eq hblank, Line.text, hwords]
  split
  · rename_i hnil
    rw [hnil, List.map_singleton, Alias.substitute_empty hv, textOf_singleton]
    exact textOf_nil
  · rfl

end

/-- Aliases are one substitution, word for word. The definitions of a source have distinct names, and none of their
values is one of the names. Every line keeps what was written, a line that was dealt with before stays as it
was, and the lines that get dealt with are those of the definitions. In every other line all names are replaced
by their values at once, so that no name is left: in its words, in whatever order one replaces the names, and in
the pieces of its text, if no word holds a blank. -/
theorem applyAliases_substitutes (lines : List Line) :
    ∃ (definitions : List Definition) (after : List Line),
      (applyAliases lines).result = .ok after ∧ after.length = lines.length ∧
      Defines lines definitions ∧ (definitions.map (·.target.name)).Nodup ∧
      (∀ d ∈ definitions, ∀ e ∈ definitions, d.target.value ≠ e.target.name) ∧
      ∀ k l l', lines[k]? = some l → after[k]? = some l' →
        l'.raw = l.raw ∧ (l.consumed = true → l' = l) ∧
        (l'.consumed = true ↔ l.consumed = true ∨ ∃ d ∈ definitions, d.position = k) ∧
        (l'.consumed = false →
          l'.words = l.words.map (Alias.substitute (definitions.map (·.target))) ∧
          (∀ others : List Alias, others.Perm (definitions.map (·.target)) →
            Alias.replaceAll others l.words = l'.words) ∧
          (∀ d ∈ definitions, d.target.name ∉ l'.words) ∧
          ((∀ w ∈ l.words, ' ' ∉ w.toList) →
            l'.text = textOf (l.tokens.map (Alias.substitute (definitions.map (·.target)))) ∧
            ∀ d ∈ definitions, d.target.name ∉ l'.tokens)) := by
  have hall : (findDefinitions [] 0 lines).map (·.target) = aliasesAfter [] lines :=
    append_map_findDefinitions [] 0 lines
  have hv := valid_aliases lines
  have hn : ((aliasesAfter [] lines).map Alias.name).Nodup := @nodup_aliasesAfter [] (by simp) List.nodup_nil lines
  have hmem {d : Definition} (hd : d ∈ findDefinitions [] 0 lines) : d.target ∈ aliasesAfter [] lines :=
    hall ▸ List.mem_map_of_mem hd
  refine ⟨findDefinitions [] 0 lines, _, applyAliases_result lines, length_aliasedFrom _ _ _,
    defines_findDefinitions lines, ?_, fun d hd e he => Alias.value_ne_name hv (hmem hd) (hmem he), ?_⟩
  · rw [← hall, List.map_map] at hn
    exact hn
  intro k l l' hl hl'
  rw [getElem?_aliasedFrom, hl, Option.map_some, Option.some_inj] at hl'
  subst hl'
  rw [hall]
  refine ⟨raw_aliased .., aliased_of_consumed _ _ l, ?_, fun hopen => ?_⟩
  · rw [consumed_aliased, Bool.or_eq_true, Option.isSome_iff_exists]
    refine or_congr_right ⟨?_, ?_⟩
    · rintro ⟨a, ha⟩
      exact ⟨⟨a, k⟩, mem_findDefinitions_iff.mpr ⟨k, l, (Nat.zero_add k).symm, hl, ha⟩, rfl⟩
    · rintro ⟨d, hd, rfl⟩
      obtain ⟨k, l', hk, hl', hd'⟩ := mem_findDefinitions_iff.mp hd
      obtain rfl : d.position = k := by omega
      rw [hl] at hl'
      cases hl'
      exact ⟨d.target, hd'⟩
  · have hwords := words_aliased _ _ l hopen
    rw [Alias.replaceAll_eq_substitute hv] at hwords
    refine ⟨hwords, fun others hp => ?_, fun d hd => ?_, fun hblank => ⟨?_, fun d hd => ?_⟩⟩
    · rw [Alias.replaceAll_eq_substitute fun a ha => hv a (hp.mem_iff.mp ha), hwords]
      exact List.map_congr_left fun w _ => Alias.substitute_perm hp hn w
    · rw [hwords]
      exact Alias.name_notMem_substitute hv l.words (hmem hd)
    · exact text_substitute hv hwords hblank
    · rw [tokens_substitute hv hwords hblank]
      exact Alias.name_notMem_substitute hv l.tokens (hmem hd)

/-- The second definition of `$a` has lost its name when it is read; the definition of `$aa` has not. -/
example :
    (applyAliases ((["mov $aa $a", ".define $a r1", ".define $a r2", "alias $aa $a"].map String.toList).map
      (Line.ofWords ∘ wordsOf))).result.toOption.map (·.map fun l => (l.text, l.consumed)) =
    some [("mov r1 r1", false), (".define $a r1", true), (".define r1 r2", false), ("alias $aa $a", true)] := by
  decide +kernel

end VirtualProcessor.Assembly
