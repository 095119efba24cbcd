import VirtualProcessor.Proofs.Assembly.Cleaning
import VirtualProcessor.Proofs.Assembly.Target

/-!
# Blank lines and comments

Lines without words may be put in anywhere (`IsSpacing`, `Inserted`). They move the lines behind them, and
with them the numbers that labels stand for and the lines that jumps leave as return addresses, but not the
positions of instructions:

* `Spaced.statedLines`: no pass sees them;
* `readLine_renumbered`: every statement is read as before but for the number in the place of a label;
* `Spaced.exists_line`: as many statements as before stand in front of each line.

So jumps to labels lead where they led, and so do the ways back (`spacing_preserves_control`).
-/

namespace VirtualProcessor.Assembly

/-! ## Insertions -/

/-- The second list is the first with elements put in for which `P` holds. -/
inductive Inserted {α : Type} (P : α → Prop) : List α → List α → Prop
  | done : Inserted P [] []
  | keep (x : α) {xs ys : List α} (h : Inserted P xs ys) : Inserted P (x :: xs) (x :: ys)
  | add {y : α} (hy : P y) {xs ys : List α} (h : Inserted P xs ys) : Inserted P xs (y :: ys)

namespace Inserted

variable {α β : Type} {P : α → Prop} {Q : β → Prop} {xs ys : List α}

theorem map {f : α → β} (hf : ∀ y, P y → Q (f y)) (h : Inserted P xs ys) :
    Inserted Q (xs.map f) (ys.map f) := by
  induction h with
  | done => exact .done
  | keep x _ ih => exact .keep (f x) ih
  | add hy _ ih => exact .add (hf _ hy) ih

theorem foldl_eq {f : β → α → β} (hf : ∀ b y, P y → f b y = b) (h : Inserted P xs ys) (b : β) :
    ys.foldl f b = xs.foldl f b := by
  induction h generalizing b with
  | done => rfl
  | keep x _ ih => exact ih (f b x)
  | add hy _ ih => rw [List.foldl_cons, hf b _ hy, ih]

theorem filterMap_eq {f : α → Option β} (hf : ∀ y, P y → f y = none) (h : Inserted P xs ys) :
    ys.filterMap f = xs.filterMap f := by
  induction h with
  | done => rfl
  | keep x _ ih => rw [List.filterMap_cons, List.filterMap_cons, ih]
  | add hy _ ih => rw [List.filterMap_cons_none (hf _ hy), ih]

theorem filter_eq {f : α → Bool} (hf : ∀ y, P y → f y = false) (h : Inserted P xs ys) :
    ys.filter f = xs.filter f := by
  induction h with
  | done => rfl
  | keep x _ ih => rw [List.filter_cons, List.filter_cons, ih]
  | add hy _ ih => rw [List.filter_cons_of_neg (by simp [hf _ hy]), ih]

theorem countP_eq {f : α → Bool} (hf : ∀ y, P y → f y = false) (h : Inserted P xs ys) :
    ys.countP f = xs.countP f := by
  rw [List.countP_eq_length_filter, List.countP_eq_length_filter, h.filter_eq hf]

theorem length_le (h : Inserted P xs ys) : xs.length ≤ ys.length := by
  induction h with
  | done => exact Nat.le_refl _
  | keep x _ ih => exact Nat.succ_le_succ ih
  | add _ _ ih => exact Nat.le_succ_of_le ih

theorem mem (h : Inserted P xs ys) {x : α} (hx : x ∈ xs) : x ∈ ys := by
  induction h with
  | done => exact hx
  | keep x _ ih =>
    rcases List.mem_cons.mp hx with rfl | hx
    · exact List.mem_cons_self
    · exact List.mem_cons_of_mem _ (ih hx)
  | add _ _ ih => exact List.mem_cons_of_mem _ (ih hx)

theorem mem_or (h : Inserted P xs ys) {y : α} (hy : y ∈ ys) : y ∈ xs ∨ P y := by
  induction h with
  | done => exact .inl hy
  | keep x _ ih =>
    rcases List.mem_cons.mp hy with rfl | hy
    · exact .inl List.mem_cons_self
    · exact (ih hy).imp_left (List.mem_cons_of_mem _)
  | add hz _ ih =>
    rcases List.mem_cons.mp hy with rfl | hy
    · exact .inr hz
    · exact ih hy

/-- What stands in front of an element and behind it is kept apart. -/
theorem split {front back : List α} {x : α} (h : Inserted P (front ++ x :: back) ys) :
    ∃ front' back', ys = front' ++ x :: back' ∧ Inserted P front front' ∧ Inserted P back back' := by
  generalize hxs : front ++ x :: back = xs at h
  induction h generalizing front with
  | done => simp at hxs
  | keep z hz ih =>
    cases front with
    | nil =>
      cases hxs
      exact ⟨[], _, rfl, .done, hz⟩
    | cons f front =>
      cases hxs
      obtain ⟨front', back', rfl, hfront, hback⟩ := ih rfl
      exact ⟨_ :: front', back', rfl, .keep _ hfront, hback⟩
  | add hy _ ih =>
    obtain ⟨front', back', rfl, hfront, hback⟩ := ih hxs
    exact ⟨_ :: front', back', rfl, .add hy hfront, hback⟩

end Inserted

/-! ## Lines without words -/

/-- A line that is blank or only a comment. -/
inductive IsSpacing : List Char → Prop
  | blank {cs : List Char} (h : ∀ c ∈ cs, isSeparator c = true) : IsSpacing cs
  | comment {blanks : List Char} (hblanks : ∀ c ∈ blanks, Text.isBlank c = true) {c : Char}
      (hc : startsComment c = true) (rest : List Char) : IsSpacing (blanks ++ c :: rest)

theorem isSpacing_iff {cs : List Char} :
    IsSpacing cs ↔ cs.all isSeparator = true ∨ (cs.dropWhile Text.isBlank).head?.any startsComment = true := by
  constructor
  · intro h
    cases h with
    | blank h => exact .inl (List.all_eq_true.mpr h)
    | @comment blanks hblanks c hc rest =>
      have hblank : Text.isBlank c = false := by
        by_contra hb
        rw [not_startsComment_of_isBlank (Bool.not_eq_false _ ▸ hb)] at hc
        cases hc
      right
      rw [List.dropWhile_append_of_pos hblanks, List.dropWhile_cons_of_neg (by simp [hblank])]
      exact hc
  · rintro (h | h)
    · exact .blank (List.all_eq_true.mp h)
    · obtain ⟨c, hhead, hc⟩ := Option.any_eq_true _ _ |>.mp h
      obtain ⟨rest, hrest⟩ := List.head?_eq_some_iff.mp hhead
      rw [← List.takeWhile_append_dropWhile (p := Text.isBlank) (l := cs), hrest]
      exact .comment (List.all_eq_true.mp List.all_takeWhile) hc rest

instance (cs : List Char) : Decidable (IsSpacing cs) := decidable_of_iff _ isSpacing_iff.symm

/-- Between separators there is nothing. -/
theorem eq_nil_of_mem_fields {parts : Char → Bool} {cs : List Char} (h : ∀ c ∈ cs, parts c = true) :
    ∀ piece ∈ Text.fields parts cs, piece = [] := by
  induction cs with
  | nil => simp [Text.fields]
  | cons c cs ih =>
    obtain ⟨hc, hcs⟩ := List.forall_mem_cons.mp h
    have hfields : Text.fields parts (c :: cs) = [] :: Text.fields parts cs := if_pos hc
    rw [hfields]
    exact List.forall_mem_cons.mpr ⟨rfl, ih hcs⟩

theorem beforeComment_of_isSpacing {cs : List Char} (h : IsSpacing cs) :
    ∀ c ∈ beforeComment cs, isSeparator c = true := by
  cases h with
  | blank h =>
    have hnone : cs.any startsComment = false :=
      List.any_eq_false.mpr fun c hc => by simp [not_startsComment_of_isSeparator (h c hc)]
    rw [beforeComment, hnone]
    exact h
  | @comment blanks hblanks c hc rest =>
    have hsome : (blanks ++ c :: rest).any startsComment = true := by simp [hc]
    have hfront : (blanks ++ c :: rest).takeWhile (!startsComment ·) = blanks := by
      rw [List.takeWhile_append_of_pos fun b hb => by simp [not_startsComment_of_isBlank (hblanks b hb)],
        List.takeWhile_cons_of_neg (by simp [hc]), List.append_nil]
    have htrim : Text.trimEnd blanks = [] := Text.trimEnd_append_blanks hblanks []
    rw [beforeComment, if_pos hsome, hfront, htrim]
    simp

theorem wordsOf_of_isSpacing {cs : List Char} (h : IsSpacing cs) : wordsOf cs = [] := by
  have hnil : (Text.fields isSeparator (beforeComment cs)).filter (!·.isEmpty) = [] :=
    List.filter_eq_nil_iff.mpr fun piece hpiece => by
      simp [eq_nil_of_mem_fields (beforeComment_of_isSpacing h) piece hpiece]
  rw [wordsOf, hnil]
  rfl

/-! ## What the passes make of them -/

/-- A line without words, in every pass. -/
def blankLine : Line := ⟨[], [], true⟩

/-- Blank lines are put in among others. -/
abbrev Spaced (xs ys : List Line) : Prop := Inserted (· = blankLine) xs ys

namespace Spaced

variable {xs ys : List Line}

theorem aliasesAfter_eq (h : Spaced xs ys) (known : List Alias) :
    aliasesAfter known ys = aliasesAfter known xs := by
  refine h.foldl_eq ?_ known
  rintro known _ rfl
  exact List.append_nil known

theorem aliasedFrom (h : Spaced xs ys) (all known : List Alias) :
    Spaced (aliasedFrom all known xs) (aliasedFrom all known ys) := by
  induction h generalizing known with
  | done => exact .done
  | keep l _ ih => exact .keep _ (ih _)
  | @add _ hy xs ys h ih =>
    subst hy
    have hcons : Assembly.aliasedFrom all known (blankLine :: ys) =
        blankLine :: Assembly.aliasedFrom all known ys := by
      rw [Assembly.aliasedFrom, show known ++ (blankLine.definition? known).toList = known from
        List.append_nil known]
      rfl
    rw [hcons]
    exact .add (P := (· = blankLine)) rfl (ih known)

theorem aliasedLines (h : Spaced xs ys) : Spaced (aliasedLines xs) (aliasedLines ys) := by
  unfold Assembly.aliasedLines
  rw [h.aliasesAfter_eq]
  exact h.aliasedFrom _ _

theorem statedLines (h : Spaced xs ys) : Spaced (statedLines xs) (statedLines ys) := by
  refine h.aliasedLines.map ?_
  rintro _ rfl
  rfl

theorem requirements_eq (h : Spaced xs ys) : requirements (Assembly.aliasedLines ys) =
    requirements (Assembly.aliasedLines xs) := by
  refine h.aliasedLines.foldl_eq ?_ _
  rintro total _ rfl
  rfl

theorem labelNames_eq (h : Spaced xs ys) : labelNames ys = labelNames xs := by
  refine h.filterMap_eq ?_
  rintro _ rfl
  rfl

theorem not_isStatement {l : Line} (h : l = blankLine) : l.isStatement = false := by
  rw [h]
  rfl

theorem namesDefined (h : Spaced xs ys) (hx : NamesDefined xs) : NamesDefined ys := by
  intro l hl name hname
  rw [h.labelNames_eq]
  rcases h.mem_or hl with hl | rfl
  · exact hx l hl name hname
  · cases hname

/-- As many statements as before stand in front of a line, and what stands behind it still does. -/
theorem exists_line (h : Spaced xs ys) {k : Nat} {l : Line} (hk : xs[k]? = some l) :
    ∃ k', ys[k']? = some l ∧ positionOf ys k' = positionOf xs k ∧
      ∀ (s : Nat) (e : Line), k < s → xs[s]? = some e → ∃ s', k' < s' ∧ ys[s']? = some e := by
  have hsplit := h
  rw [eq_take_append_cons_drop hk] at hsplit
  obtain ⟨front, back, rfl, hfront, hback⟩ := hsplit.split
  refine ⟨front.length, by simp, ?_, fun s e hs he => ?_⟩
  · rw [positionOf, List.take_left]
    exact hfront.countP_eq fun _ => not_isStatement
  · have hmem : e ∈ xs.drop (k + 1) := by
      refine List.mem_iff_getElem?.mpr ⟨s - (k + 1), ?_⟩
      rw [List.getElem?_drop, Nat.add_sub_cancel' hs, he]
    obtain ⟨n, hn⟩ := List.mem_iff_getElem?.mp (hback.mem hmem)
    refine ⟨front.length + 1 + n, by omega, ?_⟩
    rw [List.getElem?_append_right (by omega), show front.length + 1 + n - front.length = n + 1 by omega,
      List.getElem?_cons_succ, hn]

end Spaced

/-! ## Statements with other numbers -/

/-- Two instructions of a line that are the same but for their numbers. -/
structure Counterpart (l : Line) (i i' : Instruction) : Prop where
  operation : i'.operation = i.operation
  rawText : i'.rawText = i.rawText
  left : i'.left = i.left
  right : i'.right = i.right
  destination : l.target? = none → i'.destination = i.destination

/-- With other numbers for labels, and another number for itself, a line is read as before. -/
theorem readLine_renumbered {labels labels' : LabelTable} {number : Nat} {l : Line} {i : Instruction}
    (hread : (readLine Family.standard number (l.named labels)).result = .ok i)
    (hlabels : ∀ name, l.target? = some name →
      (labels.lookup name).isSome = true ∧ (labels'.lookup name).isSome = true) (number' : Nat) :
    ∃ i', (readLine Family.standard number' (l.named labels')).result = .ok i' ∧ Counterpart l i i' := by
  obtain ⟨s, hs, rfl⟩ := readLine_eq_ok_iff.mp hread
  cases ht : l.target? with
  | none =>
    have hnamed : ∀ labels : LabelTable, l.named labels = l := fun labels => by
      rw [Line.named, ht]
      rfl
    refine ⟨s.onLine number' l, readLine_eq_ok_iff.mpr ⟨s, ?_, ?_⟩, ?_⟩
    · rw [hnamed] at hs ⊢
      exact hs
    · rw [hnamed]
    · exact ⟨rfl, by rw [hnamed]; rfl, rfl, rfl, fun _ => rfl⟩
  | some name =>
    obtain ⟨hsome, hsome'⟩ := hlabels name ht
    obtain ⟨n, hn⟩ := Option.isSome_iff_exists.mp hsome
    obtain ⟨n', hn'⟩ := Option.isSome_iff_exists.mp hsome'
    obtain ⟨word, rest, hwords, hjump, hnamed⟩ := words_named ht hn
    obtain ⟨_, _, hwords', -, hnamed'⟩ := words_named ht hn'
    cases hwords.symm.trans hwords'
    rw [hnamed] at hs
    obtain ⟨_, _, f, hw, hf, hstatement⟩ := statementOf?_standard_iff.mp hs
    cases hw
    obtain ⟨hmem, rfl, -⟩ := matches_of_find? hf
    have hrenumbered := Form.statement?_retarget (standardForms_jump f hmem hjump) hstatement
      (ofWordAs?_toString n')
    refine ⟨_, readLine_eq_ok_iff.mpr ⟨{ s with destination := some (.literal (.ofFloat n'.toFloat)) }, ?_, rfl⟩,
      ⟨rfl, ?_, rfl, rfl, fun hnone => ?_⟩⟩
    · rw [hnamed']
      exact statementOf?_standard_iff.mpr ⟨_, _, f, rfl, hf, hrenumbered⟩
    · show textOf _ = textOf _
      rw [raw_named, raw_named]
    · cases ht.symm.trans hnone

/-- Lines yield something if each statement among them can be read. -/
theorem exists_yields {families : List Family} {labels : LabelTable} {lines : List Line}
    (h : ∀ l ∈ lines, l.isStatement = true →
      ∀ number, ∃ i, (readLine families number (l.named labels)).result = .ok i) (placed : Nat) :
    ∃ written, Yields families labels placed lines written := by
  induction lines generalizing placed with
  | nil => exact ⟨[], .done placed⟩
  | cons l rest ih =>
    obtain ⟨hl, hrest⟩ := List.forall_mem_cons.mp h
    obtain ⟨written, hwritten⟩ := ih hrest (placed + 1)
    cases hs : l.isStatement with
    | false => exact ⟨written, .other hs hwritten⟩
    | true =>
      obtain ⟨i, hi⟩ := hl hs (placed + 1)
      exact ⟨i :: written, .statement hs hi hwritten⟩

theorem getElem?_filter_countP {lines : List Line} {k : Nat} {l : Line} (hk : lines[k]? = some l)
    (hl : l.isStatement = true) : (lines.filter Line.isStatement)[positionOf lines k]? = some l := by
  have hfilter : lines.filter Line.isStatement =
      (lines.take k).filter Line.isStatement ++ l :: (lines.drop (k + 1)).filter Line.isStatement := by
    conv_lhs => rw [eq_take_append_cons_drop hk]
    rw [List.filter_append, List.filter_cons_of_pos hl]
  rw [hfilter, positionOf, List.countP_eq_length_filter, List.getElem?_append_right (Nat.le_refl _),
    Nat.sub_self]
  rfl

section

variable {lines lines' : List Line} {written written' : List Instruction}

/-- The labels that lines name are still found. -/
theorem Spaced.lookup_isSome (h : Spaced lines lines') (hdefined : NamesDefined lines) {l : Line} (hl : l ∈ lines)
    (name : String) (hname : l.target? = some name) :
    ((labelEntries 0 lines).lookup name).isSome = true ∧ ((labelEntries 0 lines').lookup name).isSome = true := by
  rw [lookup_isSome_iff_defined, lookup_isSome_iff_defined, h.labelNames_eq]
  exact ⟨hdefined l hl name hname, hdefined l hl name hname⟩

/-- What lines yield at a position comes from the same line when blank lines are put in. -/
theorem Spaced.counterpart (h : Spaced lines lines') (hdefined : NamesDefined lines)
    (hy : Yields Family.standard (labelEntries 0 lines) 0 lines written)
    (hy' : Yields Family.standard (labelEntries 0 lines') 0 lines' written')
    {n : Nat} {i i' : Instruction} (hi : written[n]? = some i) (hi' : written'[n]? = some i') :
    ∃ k l, lines[k]? = some l ∧ positionOf lines k = n ∧ Counterpart l i i' := by
  obtain ⟨k, l, hk, hl, hn, hread⟩ := hy.line_at hi
  obtain ⟨k', l', hk', hl', hn', hread'⟩ := hy'.line_at hi'
  have hsame : some l = some l' := by
    rw [← getElem?_filter_countP hk hl, ← getElem?_filter_countP hk' hl',
      h.filter_eq fun _ => Spaced.not_isStatement, positionOf, positionOf, hn, hn']
  cases hsame
  obtain ⟨i'', hread'', hcounterpart⟩ :=
    readLine_renumbered hread (h.lookup_isSome hdefined (List.mem_of_getElem? hk)) (0 + k' + 1)
  cases hread'.symm.trans hread''
  exact ⟨k, l, hk, hn, hcounterpart⟩

/-- A source still has its labels and its statements. -/
theorem Spaced.yields (h : Spaced lines lines') (hdefined : NamesDefined lines)
    (hy : Yields Family.standard (labelEntries 0 lines) 0 lines written) :
    ∃ written', Yields Family.standard (labelEntries 0 lines') 0 lines' written' := by
  refine exists_yields (fun l hl hs number => ?_) 0
  rcases h.mem_or hl with hl | rfl
  · obtain ⟨k, hk⟩ := List.mem_iff_getElem?.mp hl
    obtain ⟨i, -, hread⟩ := hy.instruction_at hk hs
    obtain ⟨i', hi', -⟩ := readLine_renumbered hread (h.lookup_isSome hdefined hl) number
    exact ⟨i', hi'⟩
  · cases hs

theorem Spaced.map_operation (h : Spaced lines lines') (hdefined : NamesDefined lines)
    (hy : Yields Family.standard (labelEntries 0 lines) 0 lines written)
    (hy' : Yields Family.standard (labelEntries 0 lines') 0 lines' written') :
    written'.map Instruction.operation = written.map Instruction.operation := by
  have hlength : written'.length = written.length := by
    rw [hy.length_written, hy'.length_written, h.countP_eq fun _ => Spaced.not_isStatement]
  refine List.ext_getElem (by simpa using hlength) fun n hn' hn => ?_
  rw [List.length_map] at hn hn'
  obtain ⟨k, l, -, -, hcounterpart⟩ :=
    h.counterpart hdefined hy hy' (List.getElem?_eq_getElem hn) (List.getElem?_eq_getElem hn')
  simpa using hcounterpart.operation

end

/-! ## The end of a program -/

theorem missingReturn_eq (written : List Instruction) :
    ∃ line, missingReturn written =
      if written.getLast?.map Instruction.operation = some .ret then [] else [addedReturn line] := by
  unfold missingReturn
  cases written.getLast? with
  | none => exact ⟨0, rfl⟩
  | some last =>
    refine ⟨last.line + returnGap, ?_⟩
    by_cases h : last.operation = .ret
    · simp [h]
    · simp [h, addedReturn]

/-- What stands in a program was yielded by a line, or it is a `ret` that was added at the end. -/
theorem programOf_cases {target : BuildTarget} {r : Requirements} {written : List Instruction} {n : Nat}
    {i : Instruction} (h : (programOf target r written).instructions[n]? = some i) :
    (∃ w, written[n]? = some w ∧ i = instructionFor target w) ∨
      written.length ≤ n ∧ ∃ line, i = instructionFor target (addedReturn line) := by
  rw [← Array.getElem?_toList, instructions_programOf, List.getElem?_map] at h
  obtain ⟨w, hw, rfl⟩ := Option.map_eq_some_iff.mp h
  by_cases hlt : n < written.length
  · rw [List.getElem?_append_left hlt] at hw
    exact .inl ⟨w, hw, rfl⟩
  · have hle : written.length ≤ n := Nat.le_of_not_lt hlt
    obtain ⟨line, hmissing⟩ := missingReturn_eq written
    rw [List.getElem?_append_right hle, hmissing] at hw
    refine .inr ⟨hle, line, ?_⟩
    split at hw
    · cases hw
    · rw [List.mem_singleton.mp (List.mem_of_getElem? hw)]

theorem size_programOf (target : BuildTarget) (r : Requirements) {written written' : List Instruction}
    (h : written'.map Instruction.operation = written.map Instruction.operation) :
    (programOf target r written').size = (programOf target r written).size := by
  have hlength : written'.length = written.length := by simpa using congrArg List.length h
  have hlast : written'.getLast?.map Instruction.operation = written.getLast?.map Instruction.operation := by
    rw [← List.getLast?_map, ← List.getLast?_map, h]
  obtain ⟨line, hmissing⟩ := missingReturn_eq written
  obtain ⟨line', hmissing'⟩ := missingReturn_eq written'
  have hsize : ∀ written, (programOf target r written).size = (written ++ missingReturn written).length :=
    fun written => by
      rw [Program.size, ← Array.length_toList, instructions_programOf, List.length_map]
  rw [hsize, hsize, List.length_append, List.length_append, hlength, hmissing, hmissing', hlast]
  split <;> rfl

/-! ## Whole programs -/

theorem Counterpart.instructionFor {l : Line} {i i' : Instruction} (h : Counterpart l i i')
    (target : BuildTarget) : Counterpart l (instructionFor target i) (instructionFor target i') := by
  cases target with
  | debug => exact h
  | release => exact ⟨h.operation, rfl, h.left, h.right, h.destination⟩

section

variable {lines lines' : List Line} {written written' : List Instruction} {target : BuildTarget}
  {r : Requirements}

/-- The instructions at one position are the same but for their numbers. -/
theorem Spaced.instruction (h : Spaced lines lines') (hdefined : NamesDefined lines)
    (hy : Yields Family.standard (labelEntries 0 lines) 0 lines written)
    (hy' : Yields Family.standard (labelEntries 0 lines') 0 lines' written') {n : Nat} {i i' : Instruction}
    (hi : (programOf target r written).instructions[n]? = some i)
    (hi' : (programOf target r written').instructions[n]? = some i') :
    i'.operation = i.operation ∧ i'.rawText = i.rawText ∧ i'.left = i.left ∧ i'.right = i.right ∧
      (i'.destination = i.destination ∨ ∃ (k : Nat) (l : Line) (name : String),
        lines[k]? = some l ∧ positionOf lines k = n ∧ l.target? = some name) := by
  have hlength : written'.length = written.length := by
    simpa using congrArg List.length (h.map_operation hdefined hy hy')
  obtain ⟨w, hw, rfl⟩ | ⟨hle, line, rfl⟩ := programOf_cases hi
  · have hlt : n < written.length := (List.getElem?_eq_some_iff.mp hw).1
    obtain ⟨w', hw', rfl⟩ | ⟨hle', -⟩ := programOf_cases hi'
    · obtain ⟨k, l, hk, hn, hcounterpart⟩ := h.counterpart hdefined hy hy' hw hw'
      have hc := hcounterpart.instructionFor target
      refine ⟨hc.operation, hc.rawText, hc.left, hc.right, ?_⟩
      cases ht : l.target? with
      | none => exact .inl (hc.destination ht)
      | some name => exact .inr ⟨k, l, name, hk, hn, ht⟩
    · omega
  · obtain ⟨w', hw', -⟩ | ⟨-, line', rfl⟩ := programOf_cases hi'
    · have hlt : n < written'.length := (List.getElem?_eq_some_iff.mp hw').1
      omega
    · cases target <;> exact ⟨rfl, rfl, rfl, rfl, .inl rfl⟩

/-- A jump to a label leads to the same position. -/
theorem Spaced.jumpsTo (h : Spaced lines lines') (hnodup : (labelNames lines).Nodup)
    (hy : Yields Family.standard (labelEntries 0 lines) 0 lines written)
    (hy' : Yields Family.standard (labelEntries 0 lines') 0 lines' written')
    (hascending : (programOf target r written).Ascending) (hascending' : (programOf target r written').Ascending)
    {k j s : Nat} {l d e : Line} {name : String} (hk : lines[k]? = some l) (hl : l.target? = some name)
    (hj : lines[j]? = some d) (hd : d.label? = some name) (hs : j < s) (he : lines[s]? = some e)
    (hstatement : e.isStatement = true) :
    Machine.JumpsTo (programOf target r written) (positionOf lines k) (positionOf lines j) ∧
      Machine.JumpsTo (programOf target r written') (positionOf lines k) (positionOf lines j) := by
  refine ⟨jumpsTo_label hy hnodup hascending hk hl hj hd hs he hstatement, ?_⟩
  obtain ⟨k', hk', hposition, -⟩ := h.exists_line hk
  obtain ⟨j', hj', hposition', hbehind⟩ := h.exists_line hj
  obtain ⟨s', hs', he'⟩ := hbehind s e hs he
  have hnodup' : (labelNames lines').Nodup := by
    rw [h.labelNames_eq]
    exact hnodup
  rw [← hposition, ← hposition']
  exact jumpsTo_label hy' hnodup' hascending' hk' hl hj' hd hs' he' hstatement

end

/-! ## Whole sources -/

/-- The lines of a source that asks for no other file. -/
def plainLines (source : String) : List Line := (splitLines source).map fun cs => .ofRaw (wordsOf cs)

/-- Blank lines and comments do not change control flow. A source that assembles still does when blank lines and
comments are put in, with the same target, requirements and number of instructions. The instructions are the
same but for the lines they stand on and the lines they jump to by a label. Jumps to labels behind which there
is an instruction lead to the same position as before, the one of that instruction, and the ways back do too. -/
theorem spacing_preserves_control {source source' : String} {target : BuildTarget} {p : Program}
    (hspaced : Inserted IsSpacing (splitLines source) (splitLines source'))
    (h : (({} : Assembler).assemble source target).result = .ok p) :
    let lines := statedLines (plainLines source)
    ∃ p', (({} : Assembler).assemble source' target).result = .ok p' ∧ p'.target = p.target ∧
      p'.requirements = p.requirements ∧ p'.size = p.size ∧
      (∀ (n : Nat) (i i' : Instruction), p.instructions[n]? = some i → p'.instructions[n]? = some i' →
        i'.operation = i.operation ∧ i'.rawText = i.rawText ∧ i'.left = i.left ∧ i'.right = i.right ∧
        (i'.destination = i.destination ∨ ∃ (k : Nat) (l : Line) (name : String),
          lines[k]? = some l ∧ positionOf lines k = n ∧ l.target? = some name)) ∧
      ((splitLines source').length < UInt32.size - 4 →
        ∀ (k j s n : Nat) (l d e : Line) (name : String) (i : Instruction), lines[k]? = some l →
          l.target? = some name → lines[j]? = some d → d.label? = some name → j < s → lines[s]? = some e →
          e.isStatement = true → positionOf lines k = n → p.instructions[n]? = some i →
            Machine.JumpsTo p n (positionOf lines j) ∧ Machine.JumpsTo p' n (positionOf lines j) ∧
            (i.operation.links = true → Machine.ReturnsTo p n (n + 1) ∧ Machine.ReturnsTo p' n (n + 1))) := by
  intro lines
  obtain ⟨_, written, hexpanded, hnodup, hdefined, hyields, rfl⟩ := assemble_eq_ok_iff.mp h
  obtain ⟨hnone, rfl⟩ := expand_none_iff.mp hexpanded
  have hplain : Spaced (plainLines source) (plainLines source') := by
    refine hspaced.map fun cs hcs => ?_
    rw [wordsOf_of_isSpacing hcs]
    rfl
  have hexpanded' : (expand none 64 source').result = .ok (plainLines source') := by
    refine expand_none_iff.mpr ⟨fun cs hcs => ?_, rfl⟩
    rcases hspaced.mem_or hcs with hcs | hcs
    · exact hnone cs hcs
    · rw [wordsOf_of_isSpacing hcs]
      rfl
  have hlines := hplain.statedLines
  obtain ⟨written', hyields'⟩ := hlines.yields hdefined hyields
  have h' : (({} : Assembler).assemble source' target).result =
      .ok (programOf target (requirements (aliasedLines (plainLines source))) written') := by
    refine assemble_eq_ok_iff.mpr ⟨_, written', hexpanded', ?_, hlines.namesDefined hdefined, hyields', ?_⟩
    · rw [hlines.labelNames_eq]
      exact hnodup
    · rw [hplain.requirements_eq]
  have hsize := size_programOf target (requirements (aliasedLines (plainLines source)))
    (hlines.map_operation hdefined hyields hyields')
  refine ⟨_, h', ?_, ?_, hsize, fun n i i' => hlines.instruction hdefined hyields hyields', fun hbound => ?_⟩
  · cases target <;> rfl
  · cases target <;> rfl
  · have hle := hspaced.length_le
    have hascending := ascending_of_assemble h hexpanded (by rw [List.length_map]; omega)
    have hascending' := ascending_of_assemble h' hexpanded' (by rw [plainLines, List.length_map]; exact hbound)
    rintro k j s _ l d e name i hk hl hj hd hs he hstatement rfl hi
    obtain ⟨hjumps, hjumps'⟩ :=
      hlines.jumpsTo hnodup hyields hyields' hascending hascending' hk hl hj hd hs he hstatement
    refine ⟨hjumps, hjumps', fun hlinks => ?_⟩
    have hlt := (Array.getElem?_eq_some_iff.mp hi).1
    have hi' := Array.getElem?_eq_getElem (Nat.lt_of_lt_of_eq hlt hsize.symm)
    have hlinks' := hlinks
    rw [← (hlines.instruction hdefined hyields hyields' hi hi').1] at hlinks'
    obtain ⟨next, hnext⟩ := next_of_assemble h hi (Machine.isJump_of_links hlinks)
    obtain ⟨next', hnext'⟩ := next_of_assemble h' hi' (Machine.isJump_of_links hlinks')
    exact ⟨Machine.returnsTo_next hascending hi hnext hlinks,
      Machine.returnsTo_next hascending' hi' hnext' hlinks'⟩

/-- A call, with lines put in at both ends, behind the call and between the label and its instruction. -/
theorem spacing_preserves_control_call :
    let p : Program :=
      { target := .release, instructions := #[
        { operation := .jump true, destination := some (.literal (.ofFloat 4)), line := 1 },
        { operation := .ret, line := 2 },
        { operation := .jump false, destination := some .returnAddress, line := 4 },
        { operation := .ret, line := 7 }] }
    (({} : Assembler).assemble "jal sub\nret\nsub:\nj ra" .release).result = .ok p ∧
      ∃ p', (({} : Assembler).assemble "# start\njal sub\n\nret\nsub:\n \t; body\nj ra\n" .release).result =
          .ok p' ∧ p'.size = p.size ∧ Machine.JumpsTo p 0 2 ∧ Machine.JumpsTo p' 0 2 ∧
        Machine.ReturnsTo p 0 1 ∧ Machine.ReturnsTo p' 0 1 := by
  intro p
  have h : (({} : Assembler).assemble "jal sub\nret\nsub:\nj ra" .release).result = .ok p :=
    eq_ok_of_toOption (by decide +kernel)
  have hlines : splitLines "jal sub\nret\nsub:\nj ra" =
      ["jal sub", "ret", "sub:", "j ra"].map String.toList := by
    decide +kernel
  have hlines' : splitLines "# start\njal sub\n\nret\nsub:\n \t; body\nj ra\n" =
      ["# start", "jal sub", "", "ret", "sub:", " \t; body", "j ra", ""].map String.toList := by
    decide +kernel
  have hspaced : Inserted IsSpacing (splitLines "jal sub\nret\nsub:\nj ra")
      (splitLines "# start\njal sub\n\nret\nsub:\n \t; body\nj ra\n") := by
    rw [hlines, hlines']
    refine .add (by decide +kernel) (.keep _ (.add (by decide +kernel) (.keep _ (.keep _ ?_))))
    exact .add (by decide +kernel) (.keep _ (.add (by decide +kernel) .done))
  obtain ⟨p', h', -, -, hsize, -, hcontrol⟩ := spacing_preserves_control hspaced h
  obtain ⟨hjumps, hjumps', hreturns⟩ := hcontrol (by rw [hlines']; decide) 0 2 3 0
    ⟨["jal", "sub"], ["jal", "sub"], false⟩ ⟨["sub:"], ["sub:"], false⟩ ⟨["j", "ra"], ["j", "ra"], false⟩ "sub" _
    (by decide +kernel) (by decide +kernel) (by decide +kernel) (by decide +kernel) (by decide)
    (by decide +kernel) (by decide +kernel) (by decide +kernel) rfl
  obtain ⟨hreturn, hreturn'⟩ := hreturns rfl
  have hposition : positionOf (statedLines (plainLines "jal sub\nret\nsub:\nj ra")) 2 = 2 := by decide +kernel
  rw [hposition] at hjumps hjumps'
  exact ⟨h, p', h', hsize, hjumps, hjumps', hreturn, hreturn'⟩

end VirtualProcessor.Assembly
