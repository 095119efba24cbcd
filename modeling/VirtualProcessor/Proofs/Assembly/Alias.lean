import VirtualProcessor.Assembly.Alias
import VirtualProcessor.Proofs.Operand.Reading

/-!
# Aliases line by line

The aliases are found in one pass over the source and replaced in another, which looks the definitions up by
the positions of their lines. The same is said here line by line: a line is read with the aliases that are
known in front of it (`aliasesAfter`), and the line of a definition is the one that defines an alias then
(`applyAliases_result`, `getElem?_aliasedFrom`).

The name of an alias starts with a dollar sign and its value is an operand, so a word is replaced at most once:
`replaceWord_of_not_name`, `replaceWord_eq_iff`.
-/

namespace VirtualProcessor.Assembly

/-! ## Words -/

namespace Alias

/-- What becomes of a word. -/
def replaceWord (aliases : List Alias) (w : String) : String :=
  aliases.foldl (fun w a => if w = a.name then a.value else w) w

theorem replaceAll_eq_map (aliases : List Alias) (words : List String) :
    replaceAll aliases words = words.map (replaceWord aliases) := by
  induction aliases generalizing words with
  | nil => exact (List.map_id words).symm
  | cons a aliases ih =>
    show replaceAll aliases (a.replace words) = _
    rw [ih, replace, List.map_map]
    rfl

/-- An alias as definitions make it. -/
structure Valid (a : Alias) : Prop where
  name : isName a.name.toList = true
  value : (Operand.ofWord? a.value).isSome

theorem valid_of_ofWords? {words : List String} {a : Alias} (h : ofWords? words = some a) : a.Valid := by
  unfold ofWords? at h
  split at h
  · split at h
    · rename_i hc
      cases h
      exact ⟨hc.2.1, hc.2.2⟩
    · cases h
  · cases h

/-- No operand is the name of an alias. -/
theorem not_isName_of_operand {w : String} (h : (Operand.ofWord? w).isSome) : isName w.toList = false := by
  have hchars := Operand.isOperandChar_of_ofWord? h
  unfold isName
  split
  · rename_i cs hw
    exact absurd (hchars '$' (hw ▸ List.mem_cons_self)) (by decide)
  · rfl

section

variable {aliases : List Alias} (hv : ∀ a ∈ aliases, a.Valid)

include hv

/-- A word that is no name is left alone. -/
theorem replaceWord_of_not_name {w : String} (h : isName w.toList = false) : replaceWord aliases w = w := by
  induction aliases with
  | nil => rfl
  | cons a aliases ih =>
    obtain ⟨ha, hrest⟩ := List.forall_mem_cons.mp hv
    have hne : w ≠ a.name := fun e => by
      rw [e, ha.name] at h
      cases h
    show replaceWord aliases (if w = a.name then a.value else w) = w
    rw [if_neg hne, ih hrest]

/-- A word is left alone or becomes an operand. -/
theorem replaceWord_eq_or (w : String) :
    replaceWord aliases w = w ∨
      isName w.toList = true ∧ (Operand.ofWord? (replaceWord aliases w)).isSome := by
  induction aliases with
  | nil => exact .inl rfl
  | cons a aliases ih =>
    obtain ⟨ha, hrest⟩ := List.forall_mem_cons.mp hv
    by_cases hw : w = a.name
    · have hvalue : replaceWord (a :: aliases) w = a.value := by
        show replaceWord aliases (if w = a.name then a.value else w) = _
        rw [if_pos hw, replaceWord_of_not_name hrest (not_isName_of_operand ha.value)]
      exact .inr ⟨hw ▸ ha.name, hvalue ▸ ha.value⟩
    · have hsame : replaceWord (a :: aliases) w = replaceWord aliases w := by
        show replaceWord aliases (if w = a.name then a.value else w) = _
        rw [if_neg hw]
      rw [hsame]
      exact ih hrest

/-- What is neither a name nor an operand stands only where it was written. -/
theorem replaceWord_eq_iff {w v : String} (hname : isName v.toList = false)
    (hoperand : Operand.ofWord? v = none) : replaceWord aliases w = v ↔ w = v := by
  constructor
  · intro h
    obtain hw | ⟨-, hw⟩ := replaceWord_eq_or hv w
    · exact hw.symm.trans h
    · rw [h, hoperand] at hw
      cases hw
  · rintro rfl
    exact replaceWord_of_not_name hv hname

end

end Alias

/-! ## Lines -/

/-- The alias that a line defines, read with the known ones. -/
def Line.definition? (known : List Alias) (l : Line) : Option Alias :=
  if l.consumed then none else Alias.ofWords? (Alias.replaceAll known l.words)

/-- The aliases that are known after some lines. -/
def aliasesAfter (known : List Alias) (lines : List Line) : List Alias :=
  lines.foldl (fun known l => known ++ (l.definition? known).toList) known

/-- A line of the source once all aliases are replaced; `known` were defined in front of it. -/
def Line.aliased (all known : List Alias) (l : Line) : Line :=
  if l.consumed then l
  else if (l.definition? known).isSome then { l with consumed := true }
  else { l with words := Alias.replaceAll all l.words }

/-- The lines of a source once all aliases are replaced. -/
def aliasedFrom (all known : List Alias) : List Line → List Line
  | [] => []
  | l :: rest => l.aliased all known :: aliasedFrom all (known ++ (l.definition? known).toList) rest

theorem aliasesAfter_cons (known : List Alias) (l : Line) (rest : List Line) :
    aliasesAfter known (l :: rest) = aliasesAfter (known ++ (l.definition? known).toList) rest := rfl

theorem valid_of_definition? {known : List Alias} {l : Line} {a : Alias} (h : l.definition? known = some a) :
    a.Valid := by
  unfold Line.definition? at h
  split at h
  · cases h
  · exact Alias.valid_of_ofWords? h

theorem valid_of_mem_aliasesAfter {known : List Alias} (hk : ∀ a ∈ known, a.Valid) (lines : List Line) :
    ∀ a ∈ aliasesAfter known lines, a.Valid := by
  induction lines generalizing known with
  | nil => exact hk
  | cons l rest ih =>
    refine ih fun a ha => ?_
    rcases List.mem_append.mp ha with ha | ha
    · exact hk a ha
    · exact valid_of_definition? (Option.mem_toList.mp ha)

theorem findDefinitions_cons (known : List Alias) (position : Nat) (l : Line) (rest : List Line) :
    findDefinitions known position (l :: rest) =
      (l.definition? known).toList.map (⟨·, position⟩) ++
        findDefinitions (known ++ (l.definition? known).toList) (position + 1) rest := by
  rw [findDefinitions, Line.definition?]
  cases l.consumed with
  | true => simp
  | false =>
    simp only [Bool.false_eq_true, ↓reduceIte]
    cases Alias.ofWords? (Alias.replaceAll known l.words) with
    | none => simp
    | some a => simp

theorem append_map_findDefinitions (known : List Alias) (position : Nat) (lines : List Line) :
    known ++ (findDefinitions known position lines).map (·.target) = aliasesAfter known lines := by
  induction lines generalizing known position with
  | nil => exact List.append_nil known
  | cons l rest ih =>
    rw [findDefinitions_cons, aliasesAfter_cons, ← ih _ (position + 1), List.map_append, List.map_map,
      ← List.append_assoc]
    congr 2
    exact List.map_id _

/-- Definitions stand where their lines do. -/
theorem le_of_mem_findDefinitions {known : List Alias} {position : Nat} {lines : List Line} {d : Definition}
    (h : d ∈ findDefinitions known position lines) : position ≤ d.position := by
  induction lines generalizing known position with
  | nil => cases h
  | cons l rest ih =>
    rw [findDefinitions_cons] at h
    rcases List.mem_append.mp h with h | h
    · obtain ⟨a, -, rfl⟩ := List.mem_map.mp h
      exact Nat.le_refl _
    · exact Nat.le_of_succ_le (ih h)

theorem map_replaceAliases (earlier : List Definition) (known : List Alias) (position : Nat)
    (lines : List Line) (he : ∀ d ∈ earlier, d.position < position) :
    let definitions := earlier ++ findDefinitions known position lines
    (lines.zipIdx position).map (fun (l, k) => l.replaceAliases definitions k) =
      aliasedFrom (definitions.map (·.target)) known lines := by
  induction lines generalizing earlier known position with
  | nil => rfl
  | cons l rest ih =>
    intro definitions
    rw [List.zipIdx_cons, List.map_cons, aliasedFrom]
    have hdefs : definitions = (earlier ++ (l.definition? known).toList.map (⟨·, position⟩)) ++
        findDefinitions (known ++ (l.definition? known).toList) (position + 1) rest := by
      rw [List.append_assoc, ← findDefinitions_cons]
    congr 1
    · -- Of all definitions only the one of this line stands here.
      have hearlier : earlier.any (·.position == position) = false :=
        List.any_eq_false.mpr fun d hd => by simpa using Nat.ne_of_lt (he d hd)
      have hlater : (findDefinitions (known ++ (l.definition? known).toList) (position + 1) rest).any
          (·.position == position) = false :=
        List.any_eq_false.mpr fun d hd => by simpa using Nat.ne_of_gt (le_of_mem_findDefinitions hd)
      have hany : definitions.any (·.position == position) = (l.definition? known).isSome := by
        rw [hdefs, List.any_append, List.any_append, hearlier, hlater]
        cases l.definition? known <;> simp
      simp only [Line.replaceAliases, Line.aliased, hany]
    · rw [hdefs]
      refine ih _ _ (position + 1) fun d hd => ?_
      rcases List.mem_append.mp hd with hd | hd
      · exact Nat.lt_succ_of_lt (he d hd)
      · obtain ⟨a, -, rfl⟩ := List.mem_map.mp hd
        exact Nat.lt_succ_self _

/-- All aliases are found before any is replaced, and the line of a definition is dealt with. -/
theorem applyAliases_result (lines : List Line) :
    (applyAliases lines).result = .ok (aliasedFrom (aliasesAfter [] lines) [] lines) := by
  have h := map_replaceAliases [] [] 0 lines (by simp)
  have hall := append_map_findDefinitions [] 0 lines
  simp only [List.nil_append] at h hall
  rw [← hall, ← h]
  rfl

theorem getElem?_aliasedFrom (all known : List Alias) (lines : List Line) (k : Nat) :
    (aliasedFrom all known lines)[k]? =
      lines[k]?.map (·.aliased all (aliasesAfter known (lines.take k))) := by
  induction lines generalizing known k with
  | nil => simp [aliasedFrom]
  | cons l rest ih =>
    cases k with
    | zero => simp [aliasedFrom, aliasesAfter]
    | succ k => simpa [aliasedFrom, aliasesAfter_cons] using ih _ k

theorem length_aliasedFrom (all known : List Alias) (lines : List Line) :
    (aliasedFrom all known lines).length = lines.length := by
  induction lines generalizing known with
  | nil => rfl
  | cons l rest ih => rw [aliasedFrom, List.length_cons, List.length_cons, ih]

end VirtualProcessor.Assembly
