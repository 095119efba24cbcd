import VirtualProcessor.Assembly.Label
import VirtualProcessor.Proofs.Operand.Reading

/-!
# Labels and the lines that name them

What makes a line define a label is read off its text. The text starts with a name (`first_of_labelName?`) and
its last word ends in a colon (`last_of_labelName?`); so a line that jumps to a label defines none
(`label?_of_target?`).

The two passes over the labels in terms of whole sources:

* `collectLabels_eq_ok_iff`, `collectLabels_of_duplicate`: labels are found if none is defined twice, and
  otherwise the first line that defines one again is named;
* `lookup_labelEntries`: a label has the number of the first statement behind the line that defines it;
* `resolveLabels_eq_ok_iff`, `resolveLabels_of_missing`: they are replaced if all of them are found, and
  otherwise the first line that names another one is named.
-/

namespace VirtualProcessor.Assembly

/-! ## The text of a line that defines a label -/

theorem textOf_nil : textOf [] = "" := String.intercalate_nil

theorem textOf_singleton (w : String) : textOf [w] = w := String.intercalate_singleton

theorem toList_textOf_cons_cons (w v : String) (ws : List String) :
    (textOf (w :: v :: ws)).toList = w.toList ++ ' ' :: (textOf (v :: ws)).toList := by
  simp [textOf, String.intercalate_cons_cons]

/-- A label is a name, then perhaps blanks, then a colon. -/
theorem eq_of_labelName? {text name : String} (h : labelName? text = some name) :
    isIdentifier name.toList = true ∧
      ∃ blanks, (∀ c ∈ blanks, Text.isBlank c = true) ∧ text.toList = name.toList ++ blanks ++ [':'] := by
  unfold labelName? at h
  split at h
  · rename_i cs hcs
    simp only at h
    split at h
    · rename_i hname
      cases h
      rw [String.toList_ofList]
      refine ⟨hname, (cs.takeWhile Text.isBlank).reverse, fun c hc => ?_, ?_⟩
      · exact List.all_eq_true.mp List.all_takeWhile c (List.mem_reverse.mp hc)
      · rw [← List.reverse_append, List.takeWhile_append_dropWhile, ← List.reverse_cons, ← hcs,
          List.reverse_reverse]
    · cases h
  · cases h

/-- The characters of a name. -/
def isNameChar (c : Char) : Bool := c.isAlphanum || c == '_'

theorem isNameChar_of_isIdentifier {cs : List Char} (h : isIdentifier cs = true) :
    ∀ c ∈ cs, isNameChar c = true := by
  cases cs with
  | nil => intro c hc; cases hc
  | cons d cs =>
    simp only [isIdentifier, Bool.and_eq_true, List.all_eq_true] at h
    refine List.forall_mem_cons.mpr ⟨?_, h.2⟩
    rcases Bool.or_eq_true _ _ ▸ h.1 with hd | hd
    · simp [isNameChar, Char.isAlphanum, hd]
    · simp [isNameChar, eq_of_beq hd]

/-- No character of a name is blank or a colon. -/
theorem not_blank_or_colon {c : Char} (h : isNameChar c = true) : ¬ (Text.isBlank c = true ∨ c = ':') := by
  have hrange : 65 ≤ c.toNat ∧ c.toNat ≤ 90 ∨ 97 ≤ c.toNat ∧ c.toNat ≤ 122 ∨
      48 ≤ c.toNat ∧ c.toNat ≤ 57 ∨ c.toNat = 95 := by
    rw [isNameChar, Bool.or_eq_true, Numeral.isAlphanum_iff, beq_iff_eq] at h
    rcases h with ((h | h) | h) | h
    · exact .inl h
    · exact .inr (.inl h)
    · exact .inr (.inr (.inl h))
    · exact .inr (.inr (.inr (congrArg Char.toNat h)))
  rintro (hb | hc)
  · simp only [Text.isBlank, Text.blankRanges, List.any_cons, List.any_nil, Bool.or_eq_true,
      Bool.and_eq_true, decide_eq_true_eq, Bool.or_false] at hb
    omega
  · have : c.toNat = 58 := congrArg Char.toNat hc
    omega

/-- The text of a line ends with its last word, and what stands in front of that does not end in a colon. -/
theorem toList_textOf_append (ws : List String) (w : String) :
    ∃ front, (textOf (ws ++ [w])).toList = front ++ w.toList ∧ front.getLast? ≠ some ':' := by
  induction ws with
  | nil => exact ⟨[], by rw [List.nil_append, textOf_singleton, List.nil_append], nofun⟩
  | cons v ws ih =>
    obtain ⟨front, htext, hlast⟩ := ih
    have hcons : (textOf (v :: ws ++ [w])).toList = v.toList ++ ' ' :: (textOf (ws ++ [w])).toList := by
      cases ws with
      | nil => exact toList_textOf_cons_cons v w []
      | cons x ws => exact toList_textOf_cons_cons v x (ws ++ [w])
    refine ⟨v.toList ++ ' ' :: front, ?_, ?_⟩
    · rw [hcons, htext, List.append_assoc, List.cons_append]
    · rw [List.getLast?_append, List.getLast?_cons]
      cases hf : front.getLast? with
      | none => simp
      | some c =>
        rw [hf] at hlast
        simpa using hlast

/-- The last word of a line that defines a label ends in a colon. -/
theorem last_of_labelName? {words : List String} {name : String} (h : labelName? (textOf words) = some name) :
    ∃ w, words.getLast? = some w ∧ w.toList.getLast? = some ':' := by
  obtain ⟨-, blanks, -, htext⟩ := eq_of_labelName? h
  have hcolon : (textOf words).toList.getLast? = some ':' := by
    rw [htext, List.getLast?_append]
    rfl
  rcases List.eq_nil_or_concat words with rfl | ⟨ws, w, rfl⟩
  · rw [textOf_nil] at hcolon
    cases hcolon
  rw [List.concat_eq_append] at hcolon ⊢
  obtain ⟨front, hfront, hlast⟩ := toList_textOf_append ws w
  refine ⟨w, List.getLast?_concat, ?_⟩
  rw [hfront, List.getLast?_append] at hcolon
  cases hw : w.toList.getLast? with
  | none =>
    rw [hw] at hcolon
    exact absurd hcolon hlast
  | some c =>
    rw [hw] at hcolon
    exact hcolon

/-- The first word of a line that defines a label starts with a name. -/
theorem first_of_labelName? {words : List String} {name : String} (h : labelName? (textOf words) = some name) :
    ∃ w, words.head? = some w ∧ ∃ c, w.toList.head? = some c ∧ (c.isAlpha || c == '_') = true := by
  obtain ⟨hname, blanks, -, htext⟩ := eq_of_labelName? h
  obtain ⟨c, cs, hcs⟩ : ∃ c cs, name.toList = c :: cs := by
    cases hcs : name.toList with
    | nil =>
      rw [hcs] at hname
      cases hname
    | cons c cs => exact ⟨c, cs, rfl⟩
  have hc : (c.isAlpha || c == '_') = true := by
    rw [hcs, isIdentifier, Bool.and_eq_true] at hname
    exact hname.1
  have hhead : (textOf words).toList.head? = some c := by
    rw [htext, hcs]
    rfl
  obtain _ | ⟨w, _ | ⟨v, ws⟩⟩ := words
  · cases hhead
  · rw [textOf_singleton] at hhead
    exact ⟨w, rfl, c, hhead, hc⟩
  · rw [toList_textOf_cons_cons, List.head?_append] at hhead
    cases hw : w.toList.head? with
    | none =>
      rw [hw] at hhead
      cases hhead
      exact absurd hc (by decide)
    | some d =>
      rw [hw] at hhead
      cases hhead
      exact ⟨w, rfl, c, hw, hc⟩

theorem toList_textOf_cons (w : String) (ws : List String) :
    ∃ rest, (textOf (w :: ws)).toList = w.toList ++ rest := by
  cases ws with
  | nil => exact ⟨[], by rw [textOf_singleton, List.append_nil]⟩
  | cons v ws => exact ⟨_, toList_textOf_cons_cons w v ws⟩

/-- A line whose second word is a name defines no label: the name of the label would have to hold the blank
between the two words, or the second word would have to be blank. -/
theorem labelName?_of_second {word target : String} (rest : List String)
    (h : isIdentifier target.toList = true) : labelName? (textOf (word :: target :: rest)) = none := by
  cases hl : labelName? (textOf (word :: target :: rest)) with
  | none => rfl
  | some name =>
    exfalso
    obtain ⟨hname, blanks, hblanks, htext⟩ := eq_of_labelName? hl
    obtain ⟨after, hafter⟩ := toList_textOf_cons target rest
    cases ht : target.toList with
    | nil =>
      rw [ht] at h
      cases h
    | cons c cs =>
      have hc : isNameChar c = true := isNameChar_of_isIdentifier h c (ht ▸ List.mem_cons_self)
      have hbehind : ∀ d ∈ blanks ++ [':'], Text.isBlank d = true ∨ d = ':' := by
        intro d hd
        rcases List.mem_append.mp hd with hd | hd
        · exact .inl (hblanks d hd)
        · exact .inr (List.mem_singleton.mp hd)
      rw [toList_textOf_cons_cons, hafter, ht, List.append_assoc] at htext
      rcases List.append_eq_append_iff.mp htext with ⟨as, has, hrest⟩ | ⟨as, -, hrest⟩
      · cases as with
        | nil =>
          refine not_blank_or_colon hc (hbehind c ?_)
          rw [← List.nil_append (blanks ++ [':']), ← hrest]
          simp
        | cons d as =>
          obtain rfl : d = ' ' := (List.cons.inj hrest).1.symm
          have hspace := isNameChar_of_isIdentifier hname ' ' (by rw [has]; simp)
          exact absurd hspace (by decide)
      · refine not_blank_or_colon hc (hbehind c ?_)
        rw [hrest]
        simp

/-- What a line says that jumps to a label. -/
theorem Line.target?_eq_some_iff {l : Line} {name : String} :
    l.target? = some name ↔ l.consumed = false ∧ isIdentifier name.toList = true ∧ Operand.ofWord? name = none ∧
      ∃ word rest, l.words = word :: name :: rest ∧ isJumpWord word = true := by
  constructor
  · intro h
    unfold Line.target? at h
    split at h
    · cases h
    · rename_i hconsumed
      split at h
      · rename_i word target rest hwords
        split at h
        · rename_i hc
          cases h
          exact ⟨Bool.eq_false_iff.mpr hconsumed, hc.2.1, hc.2.2, word, rest, hwords, hc.1⟩
        · cases h
      · cases h
  · rintro ⟨hconsumed, hname, hnone, word, rest, hwords, hjump⟩
    rw [Line.target?, if_neg (by simp [hconsumed]), hwords]
    exact if_pos ⟨hjump, hname, hnone⟩

/-- A line that jumps to a label defines none. -/
theorem label?_of_target? {l : Line} {name : String} (h : l.target? = some name) : l.label? = none := by
  obtain ⟨hconsumed, hname, -, word, rest, hwords, -⟩ := Line.target?_eq_some_iff.mp h
  rw [Line.label?, if_neg (by simp [hconsumed]), Line.text, hwords]
  exact labelName?_of_second rest hname

/-! ## Finding the labels -/

/-- The labels that lines define, in their order. -/
def labelNames (lines : List Line) : List String := lines.filterMap Line.label?

/-- The labels that lines define, with the numbers of the statements behind them; `placed` lines stand in
front. -/
def labelEntries (placed : Nat) : List Line → LabelTable
  | [] => []
  | l :: rest =>
    match l.label? with
    | none => labelEntries (placed + 1) rest
    | some name => (name, UInt32.ofNat (nextStatement (placed + 1) rest)) :: labelEntries (placed + 1) rest

section

variable {l : Line} {name : String} (rest : List Line)

theorem labelNames_of_none (h : l.label? = none) : labelNames (l :: rest) = labelNames rest := by
  rw [labelNames, List.filterMap_cons_none h, labelNames]

theorem labelNames_of_some (h : l.label? = some name) : labelNames (l :: rest) = name :: labelNames rest := by
  rw [labelNames, List.filterMap_cons_some h, labelNames]

theorem labelEntries_of_none (h : l.label? = none) (placed : Nat) :
    labelEntries placed (l :: rest) = labelEntries (placed + 1) rest := by
  rw [labelEntries, h]

theorem labelEntries_of_some (h : l.label? = some name) (placed : Nat) :
    labelEntries placed (l :: rest) =
      (name, UInt32.ofNat (nextStatement (placed + 1) rest)) :: labelEntries (placed + 1) rest := by
  rw [labelEntries, h]

end

theorem map_fst_labelEntries (placed : Nat) (lines : List Line) :
    (labelEntries placed lines).map Prod.fst = labelNames lines := by
  induction lines generalizing placed with
  | nil => rfl
  | cons l rest ih =>
    cases hl : l.label? with
    | none => rw [labelEntries_of_none rest hl, labelNames_of_none rest hl, ih]
    | some name => rw [labelEntries_of_some rest hl, labelNames_of_some rest hl, List.map_cons, ih]

theorem lookup_isSome_iff_mem {table : LabelTable} {name : String} :
    (table.lookup name).isSome = true ↔ name ∈ table.map Prod.fst := by
  simp only [List.lookup_isSome_iff, beq_iff_eq, List.mem_map]
  exact ⟨fun ⟨p, hp, e⟩ => ⟨p, hp, e.symm⟩, fun ⟨p, hp, e⟩ => ⟨p, hp, e.symm⟩⟩

section

variable {known : LabelTable} {placed : Nat} {l : Line} {name : String} (rest : List Line)

theorem collectLabels_of_none (h : l.label? = none) :
    collectLabels known placed (l :: rest) = collectLabels known (placed + 1) rest := by
  rw [collectLabels, h]

theorem collectLabels_of_new (h : l.label? = some name) (hnew : name ∉ known.map Prod.fst) :
    (collectLabels known placed (l :: rest)).result =
      (collectLabels (known ++ [(name, UInt32.ofNat (nextStatement (placed + 1) rest))]) (placed + 1)
        rest).result := by
  simp only [collectLabels, h, if_neg (mt lookup_isSome_iff_mem.mp hnew), Reported.result_bind,
    Reported.result_note]
  rfl

theorem collectLabels_of_known (h : l.label? = some name) (hknown : name ∈ known.map Prod.fst) :
    (collectLabels known placed (l :: rest)).result =
      .error ⟨.duplicateLabel, l.location (placed + 1)⟩ := by
  simp only [collectLabels, h, if_pos (lookup_isSome_iff_mem.mpr hknown), Reported.result_fail]

end

/-- Labels that are all different are all found. -/
theorem collectLabels_of_nodup {known : LabelTable} {placed : Nat} {lines : List Line}
    (h : (known.map Prod.fst ++ labelNames lines).Nodup) :
    (collectLabels known placed lines).result = .ok (known ++ labelEntries placed lines) := by
  induction lines generalizing known placed with
  | nil => simp [collectLabels, labelEntries]
  | cons l rest ih =>
    cases hl : l.label? with
    | none =>
      rw [labelNames_of_none rest hl] at h
      rw [collectLabels_of_none rest hl, labelEntries_of_none rest hl, ih h]
    | some name =>
      rw [labelNames_of_some rest hl] at h
      have hnew : name ∉ known.map Prod.fst := fun hmem =>
        (List.nodup_append.mp h).2.2 name hmem name List.mem_cons_self rfl
      rw [collectLabels_of_new rest hl hnew, labelEntries_of_some rest hl, ih (by simpa using h),
        List.append_assoc, List.singleton_append]

/-- The first line that defines a label again is named. -/
theorem collectLabels_of_duplicate {known : LabelTable} {placed : Nat} {front : List Line} {l : Line}
    {name : String} (back : List Line) (hfront : (known.map Prod.fst ++ labelNames front).Nodup)
    (hl : l.label? = some name) (hname : name ∈ known.map Prod.fst ++ labelNames front) :
    (collectLabels known placed (front ++ l :: back)).result =
      .error ⟨.duplicateLabel, l.location (placed + front.length + 1)⟩ := by
  induction front generalizing known placed with
  | nil => exact collectLabels_of_known back hl (by simpa [labelNames] using hname)
  | cons l' front ih =>
    have hplaced : placed + (l' :: front).length + 1 = placed + 1 + front.length + 1 := by
      rw [List.length_cons]
      omega
    rw [List.cons_append, hplaced]
    cases hl' : l'.label? with
    | none =>
      rw [labelNames_of_none front hl'] at hfront hname
      rw [collectLabels_of_none _ hl', ih hfront hname]
    | some name' =>
      rw [labelNames_of_some front hl'] at hfront hname
      have hnew : name' ∉ known.map Prod.fst := fun hmem =>
        (List.nodup_append.mp hfront).2.2 name' hmem name' List.mem_cons_self rfl
      rw [collectLabels_of_new _ hl' hnew]
      refine ih ?_ ?_
      · simpa using hfront
      · simpa [or_assoc] using hname

/-- Labels are found only if they are all different. -/
theorem nodup_of_collectLabels {known table : LabelTable} {placed : Nat} {lines : List Line}
    (hknown : (known.map Prod.fst).Nodup) (h : (collectLabels known placed lines).result = .ok table) :
    (known.map Prod.fst ++ labelNames lines).Nodup := by
  induction lines generalizing known placed with
  | nil => simpa [labelNames] using hknown
  | cons l rest ih =>
    cases hl : l.label? with
    | none =>
      rw [collectLabels_of_none rest hl] at h
      rw [labelNames_of_none rest hl]
      exact ih hknown h
    | some name =>
      by_cases hname : name ∈ known.map Prod.fst
      · rw [collectLabels_of_known rest hl hname] at h
        cases h
      · rw [collectLabels_of_new rest hl hname] at h
        rw [labelNames_of_some rest hl]
        have hlonger :
            ((known ++ [(name, UInt32.ofNat (nextStatement (placed + 1) rest))]).map Prod.fst).Nodup := by
          rw [List.map_append, List.nodup_append]
          refine ⟨hknown, by simp, fun a ha b hb hab => ?_⟩
          rw [List.map_singleton, List.mem_singleton] at hb
          rw [hab, hb] at ha
          exact hname ha
        simpa using ih hlonger h

theorem collectLabels_eq_ok_iff {placed : Nat} {lines : List Line} {table : LabelTable} :
    (collectLabels [] placed lines).result = .ok table ↔
      (labelNames lines).Nodup ∧ table = labelEntries placed lines := by
  constructor
  · intro h
    have hnodup : ([].map Prod.fst ++ labelNames lines).Nodup := nodup_of_collectLabels (by simp) h
    exact ⟨hnodup, Except.ok.inj (h.symm.trans (collectLabels_of_nodup hnodup))⟩
  · rintro ⟨hnodup, rfl⟩
    exact collectLabels_of_nodup hnodup

/-! ## Where a label leads -/

theorem nextStatement_eq (number : Nat) (lines : List Line) :
    nextStatement number lines = number + 1 + lines.findIdx Line.isStatement := by
  induction lines generalizing number with
  | nil => rfl
  | cons l rest ih =>
    rw [nextStatement, List.findIdx_cons]
    cases l.isStatement with
    | true => rfl
    | false =>
      simp only [Bool.false_eq_true, ↓reduceIte, ih, cond_false]
      omega

/-- A label has the number of the first statement behind the first line that defines it. -/
theorem lookup_labelEntries (placed : Nat) {front back : List Line} {l : Line} {name : String}
    (hfront : name ∉ labelNames front) (hl : l.label? = some name) :
    (labelEntries placed (front ++ l :: back)).lookup name =
      some (UInt32.ofNat (placed + front.length + 2 + back.findIdx Line.isStatement)) := by
  induction front generalizing placed with
  | nil =>
    rw [List.nil_append, labelEntries_of_some back hl, List.lookup_cons_self, nextStatement_eq]
    rfl
  | cons l' front ih =>
    have hplaced : placed + (l' :: front).length = placed + 1 + front.length := by
      rw [List.length_cons]
      omega
    rw [List.cons_append, hplaced]
    cases hl' : l'.label? with
    | none =>
      rw [labelNames_of_none front hl'] at hfront
      rw [labelEntries_of_none _ hl', ih (placed + 1) hfront]
    | some name' =>
      rw [labelNames_of_some front hl', List.mem_cons, not_or] at hfront
      rw [labelEntries_of_some _ hl', List.lookup_cons, beq_false_of_ne hfront.1]
      exact ih (placed + 1) hfront.2

/-! ## Replacing the labels -/

/-- The line with its label, if it names one, replaced by the number of that label. -/
def Line.named (labels : LabelTable) (l : Line) : Line :=
  match l.target?.bind fun name => labels.lookup name with
  | some number => l.retarget number
  | none => l

/-- The number of a label takes the place of its name. -/
theorem words_named {labels : LabelTable} {l : Line} {name : String} {number : UInt32}
    (hl : l.target? = some name) (hname : labels.lookup name = some number) :
    ∃ word rest, l.words = word :: name :: rest ∧ isJumpWord word = true ∧
      (l.named labels).words = word :: toString number.toNat :: rest := by
  obtain ⟨-, -, -, word, rest, hwords, hjump⟩ := Line.target?_eq_some_iff.mp hl
  refine ⟨word, rest, hwords, hjump, ?_⟩
  rw [Line.named, hl, Option.bind_some, hname]
  simp only [Line.retarget, hwords]

section

variable {labels : LabelTable} {placed : Nat}

theorem resolveLabels_of_target {l : Line} (h : ∀ name, l.target? = some name → (labels.lookup name).isSome)
    (rest : List Line) :
    (resolveLabels labels placed (l :: rest)).result =
      (resolveLabels labels (placed + 1) rest).result.map (l.named labels :: ·) := by
  rw [resolveLabels, Line.named]
  cases ht : l.target? with
  | none =>
    simp only [Reported.result_bind, Option.bind_none]
    cases (resolveLabels labels (placed + 1) rest).result <;> rfl
  | some name =>
    obtain ⟨number, hnumber⟩ := Option.isSome_iff_exists.mp (h name ht)
    simp only [hnumber, Reported.result_bind, Option.bind_some]
    cases (resolveLabels labels (placed + 1) rest).result <;> rfl

/-- The first line that names a label which is not there is named. -/
theorem resolveLabels_of_missing {front : List Line} {l : Line} {name : String} (back : List Line)
    (hfront : ∀ l ∈ front, ∀ name, l.target? = some name → (labels.lookup name).isSome)
    (hl : l.target? = some name) (hname : labels.lookup name = none) :
    (resolveLabels labels placed (front ++ l :: back)).result =
      .error ⟨.labelNotFound, l.location (placed + front.length + 1)⟩ := by
  induction front generalizing placed with
  | nil =>
    rw [List.nil_append, resolveLabels, hl]
    simp only [hname]
    rfl
  | cons l' front ih =>
    obtain ⟨hl', hfront⟩ := List.forall_mem_cons.mp hfront
    have hplaced : placed + (l' :: front).length + 1 = placed + 1 + front.length + 1 := by
      rw [List.length_cons]
      omega
    rw [List.cons_append, resolveLabels_of_target hl', ih hfront, hplaced]
    rfl

/-- Labels that are all found are replaced in all lines. -/
theorem resolveLabels_of_found {lines : List Line}
    (h : ∀ l ∈ lines, ∀ name, l.target? = some name → (labels.lookup name).isSome) :
    (resolveLabels labels placed lines).result = .ok (lines.map (·.named labels)) := by
  induction lines generalizing placed with
  | nil => rfl
  | cons l rest ih =>
    obtain ⟨hl, hrest⟩ := List.forall_mem_cons.mp h
    rw [resolveLabels_of_target hl, ih hrest]
    rfl

/-- Labels are replaced only if they are all found. -/
theorem found_of_resolveLabels {lines resolved : List Line}
    (h : (resolveLabels labels placed lines).result = .ok resolved) :
    ∀ l ∈ lines, ∀ name, l.target? = some name → (labels.lookup name).isSome := by
  induction lines generalizing placed resolved with
  | nil => intro l hl; cases hl
  | cons l rest ih =>
    have hl : ∀ name, l.target? = some name → (labels.lookup name).isSome := by
      intro name hname
      cases hlookup : labels.lookup name with
      | some number => rfl
      | none =>
        have herror : (resolveLabels labels placed ([] ++ l :: rest)).result = _ :=
          resolveLabels_of_missing rest (by simp) hname hlookup
        cases herror.symm.trans h
    rw [resolveLabels_of_target hl] at h
    cases hr : (resolveLabels labels (placed + 1) rest).result with
    | error e =>
      rw [hr] at h
      cases h
    | ok others => exact List.forall_mem_cons.mpr ⟨hl, ih hr⟩

theorem resolveLabels_eq_ok_iff {lines resolved : List Line} :
    (resolveLabels labels placed lines).result = .ok resolved ↔
      (∀ l ∈ lines, ∀ name, l.target? = some name → (labels.lookup name).isSome) ∧
        resolved = lines.map (·.named labels) := by
  constructor
  · intro h
    have hfound := found_of_resolveLabels h
    exact ⟨hfound, Except.ok.inj (h.symm.trans (resolveLabels_of_found hfound))⟩
  · rintro ⟨hfound, rfl⟩
    exact resolveLabels_of_found hfound

end

end VirtualProcessor.Assembly
