import VirtualProcessor.Assembly
import VirtualProcessor.Proofs.Assembly.Alias
import VirtualProcessor.Proofs.Assembly.Form
import VirtualProcessor.Proofs.Assembly.Label

/-!
# The passes over an expanded source

`statedLines` are the lines of an expanded source once aliases and requirements are dealt with: what is left are
labels and statements. `Yields` walks over them and says which instructions they yield, given the numbers of
the labels. A source assembles if it expands, defines no label twice, names no other label and its statements
can be read, and the program is made of what they yield (`assemble_eq_ok_iff`). If one of the labels is in the
way, the line is named (`assemble_of_duplicate`, `assemble_of_missing`).

Of the instructions that lines yield:

* `Yields.instruction_at`, `Yields.line_at`: the instruction of a statement stands where as many statements
  stand in front of it, and every instruction is that of a statement;
* `Yields.pairwise_line`: their lines ascend.
-/

namespace VirtualProcessor.Assembly

/-! ## Lines that are left -/

theorem eq_take_append_cons_drop {lines : List Line} {k : Nat} {l : Line} (hk : lines[k]? = some l) :
    lines = lines.take k ++ l :: lines.drop (k + 1) := by
  obtain ⟨hlt, hget⟩ := List.getElem?_eq_some_iff.mp hk
  rw [← hget, ← List.drop_eq_getElem_cons hlt, List.take_append_drop]

/-- The lines of an expanded source with the aliases replaced. -/
def aliasedLines (expanded : List Line) : List Line := aliasedFrom (aliasesAfter [] expanded) [] expanded

/-- The lines of an expanded source of which only labels and statements are left to deal with. -/
def statedLines (expanded : List Line) : List Line := consumeRequirements (aliasedLines expanded)

theorem length_statedLines (expanded : List Line) : (statedLines expanded).length = expanded.length := by
  rw [statedLines, consumeRequirements, List.length_map, aliasedLines, length_aliasedFrom]

/-- The line, dealt with if it states a requirement. -/
def Line.required (l : Line) : Line := { l with consumed := l.consumed || l.requirement?.isSome }

theorem getElem?_statedLines (expanded : List Line) (k : Nat) :
    (statedLines expanded)[k]? = expanded[k]?.map fun l =>
      (l.aliased (aliasesAfter [] expanded) (aliasesAfter [] (expanded.take k))).required := by
  show ((aliasedLines expanded).map Line.required)[k]? = _
  rw [List.getElem?_map, aliasedLines, getElem?_aliasedFrom, Option.map_map]
  rfl

/-- The line, dealt with if it defines a label. -/
def Line.marked (l : Line) : Line := { l with consumed := l.consumed || l.label?.isSome }

theorem Line.isStatement_eq (l : Line) : l.isStatement = !l.marked.consumed := by
  rw [isStatement, marked, label?]
  cases l.consumed <;> cases labelName? l.text <;> rfl

theorem Line.marked_of_isStatement {l : Line} (h : l.isStatement = true) : l.marked = l := by
  have hconsumed : l.marked.consumed = false := by simpa [isStatement_eq] using h
  have hl : l.consumed = false := (Bool.or_eq_false_iff.mp hconsumed).1
  rw [marked] at hconsumed ⊢
  simp only at hconsumed
  rw [hconsumed, ← hl]

/-- A line that jumps to a label is none that defines one. -/
theorem Line.target?_marked (l : Line) : l.marked.target? = l.target? := by
  cases ht : l.target? with
  | some name =>
    rw [marked, label?_of_target? ht, Option.isSome_none, Bool.or_false]
    exact ht
  | none =>
    unfold target? at ht ⊢
    cases hc : l.marked.consumed with
    | true => rfl
    | false =>
      have hl : l.consumed = false := (Bool.or_eq_false_iff.mp hc).1
      rw [hl] at ht
      exact ht

theorem Line.isStatement_of_target? {l : Line} {name : String} (h : l.target? = some name) :
    l.isStatement = true := by
  obtain ⟨hconsumed, -⟩ := Line.target?_eq_some_iff.mp h
  simp [isStatement_eq, marked, hconsumed, label?_of_target? h]

theorem Line.consumed_named (labels : LabelTable) (l : Line) : (l.named labels).consumed = l.consumed := by
  unfold named
  split
  · unfold retarget
    split <;> rfl
  · rfl

/-! ## What the lines yield -/

/-- The instructions that lines yield; `placed` lines stand in front. -/
inductive Yields (families : List Family) (labels : LabelTable) :
    (placed : Nat) → List Line → List Instruction → Prop
  | done (placed : Nat) : Yields families labels placed [] []
  | other {placed : Nat} {l : Line} {rest : List Line} {written : List Instruction}
      (h : l.isStatement = false) (hrest : Yields families labels (placed + 1) rest written) :
    Yields families labels placed (l :: rest) written
  | statement {placed : Nat} {l : Line} {rest : List Line} {i : Instruction} {written : List Instruction}
      (h : l.isStatement = true) (hi : (readLine families (placed + 1) (l.named labels)).result = .ok i)
      (hrest : Yields families labels (placed + 1) rest written) :
    Yields families labels placed (l :: rest) (i :: written)

theorem readLines_eq_ok_iff {families : List Family} {labels : LabelTable} {placed : Nat}
    {lines : List Line} {written : List Instruction} :
    (readLines families placed ((consumeLabels lines).map (·.named labels))).result = .ok written ↔
      Yields families labels placed lines written := by
  induction lines generalizing placed written with
  | nil =>
    constructor
    · intro h
      cases h
      exact .done placed
    · intro h
      cases h
      rfl
  | cons l rest ih =>
    show (readLines families placed
      (l.marked.named labels :: (consumeLabels rest).map (·.named labels))).result = .ok written ↔ _
    rw [readLines, Line.consumed_named]
    cases hs : l.isStatement with
    | false =>
      have hc : l.marked.consumed = true := by simpa [Line.isStatement_eq] using hs
      rw [if_pos hc, ih]
      constructor
      · exact .other hs
      · intro h
        cases h with
        | other _ hrest => exact hrest
        | statement h => cases hs.symm.trans h
    | true =>
      have hc : ¬ l.marked.consumed = true := by simpa [Line.isStatement_eq] using hs
      rw [if_neg hc, Line.marked_of_isStatement hs]
      simp only [Reported.result_bind, Reported.result_pure]
      constructor
      · intro h
        cases hi : (readLine families (placed + 1) (l.named labels)).result with
        | error e =>
          rw [hi] at h
          cases h
        | ok i =>
          rw [hi] at h
          cases hr : (readLines families (placed + 1) ((consumeLabels rest).map (·.named labels))).result with
          | error e =>
            simp only [hr] at h
            cases h
          | ok others =>
            simp only [hr] at h
            cases h
            exact .statement hs hi (ih.mp hr)
      · intro h
        cases h with
        | other h => cases hs.symm.trans h
        | statement _ hi hrest =>
          rw [hi, ih.mpr hrest]
          rfl

namespace Yields

variable {families : List Family} {labels : LabelTable} {placed : Nat} {lines : List Line}
  {written : List Instruction}

theorem length_written (h : Yields families labels placed lines written) :
    written.length = lines.countP Line.isStatement := by
  induction h with
  | done => rfl
  | other h _ ih => rw [List.countP_cons_of_neg (by simp [h]), ih]
  | statement h _ _ ih => rw [List.countP_cons_of_pos h, List.length_cons, ih]

/-- The instruction of a statement stands where as many statements stand in front of it. -/
theorem instruction_at (h : Yields families labels placed lines written) {k : Nat} {l : Line}
    (hk : lines[k]? = some l) (hl : l.isStatement = true) :
    ∃ i, written[(lines.take k).countP Line.isStatement]? = some i ∧
      (readLine families (placed + k + 1) (l.named labels)).result = .ok i := by
  induction h generalizing k with
  | done => cases hk
  | other h _ ih =>
    cases k with
    | zero =>
      cases hk
      cases h.symm.trans hl
    | succ k =>
      rw [List.take_succ_cons, List.countP_cons_of_neg (by simp [h]), Nat.add_comm k 1, ← Nat.add_assoc]
      exact ih hk
  | statement h hi _ ih =>
    cases k with
    | zero =>
      cases hk
      exact ⟨_, rfl, hi⟩
    | succ k =>
      rw [List.take_succ_cons, List.countP_cons_of_pos h, Nat.add_comm k 1, ← Nat.add_assoc]
      exact ih hk

/-- Every instruction is that of a statement. -/
theorem line_at (h : Yields families labels placed lines written) {j : Nat} {i : Instruction}
    (hj : written[j]? = some i) :
    ∃ k l, lines[k]? = some l ∧ l.isStatement = true ∧ (lines.take k).countP Line.isStatement = j ∧
      (readLine families (placed + k + 1) (l.named labels)).result = .ok i := by
  induction h generalizing j with
  | done => cases hj
  | other h _ ih =>
    obtain ⟨k, l, hk, hl, hcount, hi⟩ := ih hj
    refine ⟨k + 1, l, hk, hl, ?_, ?_⟩
    · rw [List.take_succ_cons, List.countP_cons_of_neg (by simp [h]), hcount]
    · rw [Nat.add_comm k 1, ← Nat.add_assoc]
      exact hi
  | statement h hi _ ih =>
    cases j with
    | zero =>
      cases hj
      exact ⟨0, _, rfl, h, rfl, hi⟩
    | succ j =>
      obtain ⟨k, l, hk, hl, hcount, hi⟩ := ih hj
      refine ⟨k + 1, l, hk, hl, ?_, ?_⟩
      · rw [List.take_succ_cons, List.countP_cons_of_pos h, hcount]
      · rw [Nat.add_comm k 1, ← Nat.add_assoc]
        exact hi

/-- An instruction carries the number of its line. -/
theorem line_of_mem (h : Yields families labels placed lines written) {i : Instruction} (hi : i ∈ written) :
    ∃ n, placed < n ∧ n ≤ placed + lines.length ∧ i.line = UInt32.ofNat n := by
  obtain ⟨j, hj⟩ := List.mem_iff_getElem?.mp hi
  obtain ⟨k, l, hk, -, -, hread⟩ := h.line_at hj
  obtain ⟨s, -, rfl⟩ := readLine_eq_ok_iff.mp hread
  have hlt : k < lines.length := (List.getElem?_eq_some_iff.mp hk).1
  exact ⟨placed + k + 1, by omega, by omega, rfl⟩

/-- The lines of the instructions ascend. -/
theorem pairwise_line (h : Yields families labels placed lines written)
    (hbound : placed + lines.length < UInt32.size) : written.Pairwise (·.line < ·.line) := by
  induction h with
  | done => exact .nil
  | other _ _ ih =>
    rw [List.length_cons] at hbound
    exact ih (by omega)
  | statement _ hi hrest ih =>
    rw [List.length_cons] at hbound
    refine .cons (fun j hj => ?_) (ih (by omega))
    obtain ⟨s, -, rfl⟩ := readLine_eq_ok_iff.mp hi
    obtain ⟨n, hlow, hhigh, hn⟩ := hrest.line_of_mem hj
    show UInt32.ofNat _ < j.line
    rw [hn, UInt32.lt_iff_toNat_lt, UInt32.toNat_ofNat_of_lt' (by omega),
      UInt32.toNat_ofNat_of_lt' (by omega)]
    exact hlow

end Yields

/-! ## The end of a program -/

/-- A `ret` that stands on no line of the source. -/
def addedReturn (line : UInt32) : Instruction :=
  { operation := .ret, line, rawText := "ret", text := "ret" }

/-- The instructions that lines yield, completed so that they end in `ret`. -/
inductive Completes : List Instruction → List Instruction → Prop
  | empty : Completes [] [addedReturn 0]
  | complete (front : List Instruction) {last : Instruction} (h : last.operation = .ret) :
    Completes (front ++ [last]) (front ++ [last])
  | incomplete (front : List Instruction) {last : Instruction} (h : last.operation ≠ .ret) :
    Completes (front ++ [last]) (front ++ [last] ++ [addedReturn (last.line + 3)])

theorem completes_missingReturn (written : List Instruction) :
    Completes written (written ++ missingReturn written) := by
  rcases List.eq_nil_or_concat written with rfl | ⟨front, last, rfl⟩
  · exact .empty
  · rw [List.concat_eq_append]
    unfold missingReturn
    rw [List.getLast?_concat]
    simp only
    split
    · rename_i h
      rw [List.append_nil]
      exact .complete front h
    · rename_i h
      exact .incomplete front h

theorem Completes.forall_mem {written complete : List Instruction} (h : Completes written complete)
    {P : Instruction → Prop} (hwritten : ∀ i ∈ written, P i) (hreturn : ∀ line, P (addedReturn line)) :
    ∀ i ∈ complete, P i := by
  cases h with
  | empty => exact List.forall_mem_singleton.mpr (hreturn 0)
  | complete front => exact hwritten
  | incomplete front => exact List.forall_mem_append.mpr ⟨hwritten, List.forall_mem_singleton.mpr (hreturn _)⟩

theorem Completes.last_ret {written complete : List Instruction} (h : Completes written complete) :
    ∃ last, complete.getLast? = some last ∧ last.operation = .ret := by
  cases h with
  | empty => exact ⟨_, rfl, rfl⟩
  | complete front h => exact ⟨_, List.getLast?_concat, h⟩
  | incomplete front h => exact ⟨_, List.getLast?_concat, rfl⟩

/-- A `ret` that is added stands behind all other lines. -/
theorem Completes.pairwise_line {written complete : List Instruction} (h : Completes written complete)
    (hw : written.Pairwise (·.line < ·.line)) (hbound : ∀ i ∈ written, i.line.toNat + 3 < UInt32.size) :
    complete.Pairwise (·.line < ·.line) := by
  cases h with
  | empty => exact List.pairwise_singleton _ _
  | complete front h => exact hw
  | @incomplete front last h =>
    refine List.pairwise_append.mpr ⟨hw, List.pairwise_singleton _ _, fun i hi j hj => ?_⟩
    rw [List.mem_singleton.mp hj]
    have hlast := hbound last (by simp)
    have hle : i.line ≤ last.line := by
      rcases List.mem_append.mp hi with hi | hi
      · exact UInt32.le_of_lt ((List.pairwise_append.mp hw).2.2 i hi last (by simp))
      · rw [List.mem_singleton.mp hi]
        exact UInt32.le_refl _
    show i.line < last.line + 3
    rw [UInt32.lt_iff_toNat_lt, UInt32.toNat_add]
    rw [UInt32.le_iff_toNat_le] at hle
    have h3 : (3 : UInt32).toNat = 3 := rfl
    have hsize : UInt32.size = 4294967296 := rfl
    rw [h3]
    omega

/-! ## Whole sources -/

/-- The program of the instructions that a source yields. -/
def programOf (target : BuildTarget) (r : Requirements) (written : List Instruction) : Program :=
  let program : Program :=
    { target, requirements := r, instructions := (written ++ missingReturn written).toArray }
  match target with
  | .debug => program
  | .release => program.stripped

/-- An instruction as a program for the target keeps it. -/
def instructionFor (target : BuildTarget) (i : Instruction) : Instruction :=
  match target with
  | .debug => i
  | .release => i.stripped

@[simp]
theorem operation_instructionFor (target : BuildTarget) (i : Instruction) :
    (instructionFor target i).operation = i.operation := by
  cases target <;> rfl

@[simp]
theorem line_instructionFor (target : BuildTarget) (i : Instruction) :
    (instructionFor target i).line = i.line := by
  cases target <;> rfl

@[simp]
theorem destination_instructionFor (target : BuildTarget) (i : Instruction) :
    (instructionFor target i).destination = i.destination := by
  cases target <;> rfl

theorem instructions_programOf (target : BuildTarget) (r : Requirements) (written : List Instruction) :
    (programOf target r written).instructions.toList =
      (written ++ missingReturn written).map (instructionFor target) := by
  cases target with
  | debug => exact (List.map_id _).symm
  | release =>
    show ((written ++ missingReturn written).toArray.map Instruction.stripped).toList = _
    rw [Array.toList_map]
    rfl

/-- What a line yields stands at the same position in the program. -/
theorem getElem?_programOf (target : BuildTarget) (r : Requirements) {written : List Instruction} {n : Nat}
    {i : Instruction} (h : written[n]? = some i) :
    (programOf target r written).instructions[n]? = some (instructionFor target i) := by
  have hlt : n < written.length := (List.getElem?_eq_some_iff.mp h).1
  rw [← Array.getElem?_toList, instructions_programOf, List.getElem?_map, List.getElem?_append_left hlt, h]
  rfl

theorem back_programOf (target : BuildTarget) (r : Requirements) (written : List Instruction) :
    ∃ last, (programOf target r written).instructions.back? = some last ∧ last.operation = .ret := by
  obtain ⟨last, hlast, hret⟩ := (completes_missingReturn written).last_ret
  refine ⟨instructionFor target last, ?_, ?_⟩
  · rw [← Array.getLast?_toList, instructions_programOf, List.getLast?_map, hlast]
    rfl
  · rw [operation_instructionFor, hret]

/-- The lines of a program ascend if they can be counted. -/
theorem Yields.pairwise_line_programOf {families : List Family} {labels : LabelTable} {lines : List Line}
    {written : List Instruction} {target : BuildTarget} {r : Requirements}
    (h : Yields families labels 0 lines written) (hbound : lines.length + 4 < UInt32.size) :
    (programOf target r written).instructions.toList.Pairwise (·.line < ·.line) := by
  rw [instructions_programOf, List.pairwise_map]
  simp only [line_instructionFor]
  refine (completes_missingReturn written).pairwise_line (h.pairwise_line (by omega)) fun i hi => ?_
  obtain ⟨n, -, hn, hline⟩ := h.line_of_mem hi
  rw [hline, UInt32.toNat_ofNat_of_lt' (by omega)]
  omega

section

variable {a : Assembler} {source : String} {target : BuildTarget} {expanded : List Line}

theorem prepare_result (h : (expand a.resolver a.limit source).result = .ok expanded) :
    (a.prepare source).result = (do
      let labels ← (collectLabels [] 0 (statedLines expanded)).result
      let resolved ← (resolveLabels labels 0 (consumeLabels (statedLines expanded))).result
      pure ⟨resolved, requirements (aliasedLines expanded), labels⟩) := by
  simp only [Assembler.prepare, Reported.result_bind, h, applyAliases_result]
  rfl

theorem assemble_result :
    (a.assemble source target).result = (do
      let prepared ← (a.prepare source).result
      let written ← (readLines a.families 0 prepared.lines).result
      pure (programOf target prepared.requirements written)) := by
  simp only [Assembler.assemble, Reported.result_bind, Reported.result_note, Reported.result_pure]
  rfl

/-- The labels of a source that are named are those that are defined. -/
theorem lookup_isSome_iff_defined {lines : List Line} {name : String} :
    ((labelEntries 0 lines).lookup name).isSome = true ↔ name ∈ labelNames lines := by
  rw [lookup_isSome_iff_mem, map_fst_labelEntries]

/-- All labels that lines name are defined among them. -/
def NamesDefined (lines : List Line) : Prop :=
  ∀ l ∈ lines, ∀ name, l.target? = some name → name ∈ labelNames lines

theorem forall_mem_consumeLabels {lines : List Line} {P : String → Prop} :
    (∀ l ∈ consumeLabels lines, ∀ name, l.target? = some name → P name) ↔
      ∀ l ∈ lines, ∀ name, l.target? = some name → P name := by
  show (∀ l ∈ lines.map Line.marked, _) ↔ _
  simp only [List.forall_mem_map, Line.target?_marked]

theorem bind_eq_ok_iff {ε α β : Type} {x : Except ε α} {f : α → Except ε β} {b : β} :
    x >>= f = .ok b ↔ ∃ a, x = .ok a ∧ f a = .ok b := by
  cases x with
  | error e => exact ⟨nofun, nofun⟩
  | ok a => exact ⟨fun h => ⟨a, rfl, h⟩, fun ⟨_, e, h⟩ => by cases e; exact h⟩

/-- Lets a result be compared where errors cannot. -/
theorem eq_ok_of_toOption {ε α : Type} {x : Except ε α} {a : α} (h : x.toOption = some a) : x = .ok a := by
  cases x with
  | error e => cases h
  | ok b =>
    cases h
    rfl

/-- A source that expands can be prepared if no label is defined twice and all that are named are defined. -/
theorem prepare_eq_ok_iff (h : (expand a.resolver a.limit source).result = .ok expanded)
    {prepared : Prepared} :
    (a.prepare source).result = .ok prepared ↔
      (labelNames (statedLines expanded)).Nodup ∧ NamesDefined (statedLines expanded) ∧
        prepared = ⟨(consumeLabels (statedLines expanded)).map
          (·.named (labelEntries 0 (statedLines expanded))), requirements (aliasedLines expanded),
          labelEntries 0 (statedLines expanded)⟩ := by
  rw [prepare_result h]
  simp only [bind_eq_ok_iff, collectLabels_eq_ok_iff, resolveLabels_eq_ok_iff, forall_mem_consumeLabels]
  constructor
  · rintro ⟨_, ⟨hnodup, rfl⟩, _, ⟨hfound, rfl⟩, hp⟩
    cases hp
    refine ⟨hnodup, fun l hl name hname => ?_, rfl⟩
    exact lookup_isSome_iff_defined.mp (hfound l hl name hname)
  · rintro ⟨hnodup, hdefined, rfl⟩
    refine ⟨_, ⟨hnodup, rfl⟩, _, ⟨fun l hl name hname => ?_, rfl⟩, rfl⟩
    exact lookup_isSome_iff_defined.mpr (hdefined l hl name hname)

/-- What it takes for a source to assemble, and what the program is made of. -/
theorem assemble_eq_ok_iff {p : Program} :
    (a.assemble source target).result = .ok p ↔
      ∃ expanded written, (expand a.resolver a.limit source).result = .ok expanded ∧
        (labelNames (statedLines expanded)).Nodup ∧ NamesDefined (statedLines expanded) ∧
        Yields a.families (labelEntries 0 (statedLines expanded)) 0 (statedLines expanded) written ∧
        p = programOf target (requirements (aliasedLines expanded)) written := by
  rw [assemble_result, bind_eq_ok_iff]
  constructor
  · rintro ⟨prepared, hprepared, h⟩
    obtain ⟨expanded, hexpanded⟩ : ∃ expanded, (expand a.resolver a.limit source).result = .ok expanded := by
      simp only [Assembler.prepare, Reported.result_bind, bind_eq_ok_iff] at hprepared
      obtain ⟨expanded, hexpanded, -⟩ := hprepared
      exact ⟨expanded, hexpanded⟩
    obtain ⟨hnodup, hdefined, rfl⟩ := (prepare_eq_ok_iff hexpanded).mp hprepared
    obtain ⟨written, hwritten, hp⟩ := bind_eq_ok_iff.mp h
    cases hp
    exact ⟨expanded, written, hexpanded, hnodup, hdefined, readLines_eq_ok_iff.mp hwritten, rfl⟩
  · rintro ⟨expanded, written, hexpanded, hnodup, hdefined, hyields, rfl⟩
    refine ⟨_, (prepare_eq_ok_iff hexpanded).mpr ⟨hnodup, hdefined, rfl⟩, ?_⟩
    exact bind_eq_ok_iff.mpr ⟨written, readLines_eq_ok_iff.mpr hyields, rfl⟩

/-- The first line that defines a label again keeps a source from being assembled. -/
theorem assemble_of_duplicate (h : (expand a.resolver a.limit source).result = .ok expanded)
    {front back : List Line} {l : Line} {name : String} (hlines : statedLines expanded = front ++ l :: back)
    (hfront : (labelNames front).Nodup) (hl : l.label? = some name) (hname : name ∈ labelNames front) :
    (a.assemble source target).result = .error ⟨.duplicateLabel, l.location (front.length + 1)⟩ := by
  have hlabels : (collectLabels [] 0 (front ++ l :: back)).result =
      .error ⟨.duplicateLabel, l.location (0 + front.length + 1)⟩ :=
    collectLabels_of_duplicate back hfront hl hname
  rw [assemble_result, prepare_result h, hlines, hlabels, Nat.zero_add]
  rfl

/-- The first line that names a label which is not defined keeps a source from being assembled. -/
theorem assemble_of_missing (h : (expand a.resolver a.limit source).result = .ok expanded)
    {front back : List Line} {l : Line} {name : String} (hlines : statedLines expanded = front ++ l :: back)
    (hnodup : (labelNames (statedLines expanded)).Nodup)
    (hfront : ∀ l ∈ front, ∀ name, l.target? = some name → name ∈ labelNames (statedLines expanded))
    (hl : l.target? = some name) (hname : name ∉ labelNames (statedLines expanded)) :
    (a.assemble source target).result = .error ⟨.labelNotFound, l.location (front.length + 1)⟩ := by
  have hlabels : (collectLabels [] 0 (statedLines expanded)).result =
      .ok (labelEntries 0 (statedLines expanded)) := collectLabels_eq_ok_iff.mpr ⟨hnodup, rfl⟩
  have hnone : (labelEntries 0 (statedLines expanded)).lookup name = none := by
    rw [← Option.not_isSome_iff_eq_none, lookup_isSome_iff_defined]
    exact hname
  have hmarked : consumeLabels (statedLines expanded) =
      consumeLabels front ++ l.marked :: consumeLabels back := by
    rw [hlines, consumeLabels, List.map_append, List.map_cons]
    rfl
  have hresolved : (resolveLabels (labelEntries 0 (statedLines expanded)) 0
      (consumeLabels (statedLines expanded))).result =
        .error ⟨.labelNotFound, l.marked.location (0 + (consumeLabels front).length + 1)⟩ := by
    rw [hmarked]
    refine resolveLabels_of_missing _ (forall_mem_consumeLabels.mpr fun l hl name hname => ?_)
      ((Line.target?_marked l).trans hl) hnone
    exact lookup_isSome_iff_defined.mpr (hfront l hl name hname)
  have hlength : 0 + (consumeLabels front).length + 1 = front.length + 1 := by
    rw [consumeLabels, List.length_map, Nat.zero_add]
  rw [hlength] at hresolved
  rw [assemble_result, prepare_result h, hlabels]
  show ((resolveLabels _ 0 (consumeLabels (statedLines expanded))).result >>= _) >>= _ = _
  rw [hresolved]
  rfl

end

end VirtualProcessor.Assembly
