import VirtualProcessor.Assembly.Resolver
import VirtualProcessor.Proofs.Machine.Jump
import VirtualProcessor.Proofs.Operand.Reading

/-!
# Jumps to labels

A jump that names a label becomes a jump to the number of a line, and that number is read again as an operand and
looked up when the jump is taken. `FirstBehind` says which line a label stands for: the first behind it that yields
an instruction.

* `lookup_of_firstBehind`: the number that is put in the place of a label is that of this line;
* `jump_of_target`: it becomes the destination of the jump or branch as it is;
* `label_resolved`: hence the jump leads to the instruction of this line. A name that is no label, and a label
  that is defined twice, are reported with the first line that has them.
-/

namespace VirtualProcessor.Assembly

/-! ## The line that a label stands for -/

/-- How many instructions stand in front of that of line `k`, which is its position. -/
def positionOf (lines : List Line) (k : Nat) : Nat := (lines.take k).countP Line.isStatement

/-- Line `t` is the first behind line `j` that yields an instruction. -/
structure FirstBehind (lines : List Line) (j t : Nat) : Prop where
  behind : j < t
  statement : ∃ l, lines[t]? = some l ∧ l.isStatement = true
  between : ∀ s l, j < s → s < t → lines[s]? = some l → l.isStatement = false

section

variable {lines : List Line} {j t : Nat}

/-- If there is an instruction behind a line, there is a first. -/
theorem exists_firstBehind {s : Nat} {l : Line} (hs : j < s) (hl : lines[s]? = some l)
    (hstatement : l.isStatement = true) : ∃ t, FirstBehind lines j t := by
  classical
  have h : ∃ s, j < s ∧ ∃ l, lines[s]? = some l ∧ l.isStatement = true := ⟨s, hs, l, hl, hstatement⟩
  refine ⟨Nat.find h, (Nat.find_spec h).1, (Nat.find_spec h).2, fun s l hjs hlt hl => ?_⟩
  by_contra hne
  exact Nat.find_min h hlt ⟨hjs, l, hl, by simpa using hne⟩

theorem FirstBehind.unique {t' : Nat} (h : FirstBehind lines j t) (h' : FirstBehind lines j t') : t = t' := by
  obtain ⟨l, hl, hstatement⟩ := h.statement
  obtain ⟨l', hl', hstatement'⟩ := h'.statement
  rcases Nat.lt_trichotomy t t' with hlt | heq | hlt
  · exact absurd (h'.between t l h.behind hlt hl) (by simp [hstatement])
  · exact heq
  · exact absurd (h.between t' l' h'.behind hlt hl') (by simp [hstatement'])

theorem FirstBehind.findIdx_eq (h : FirstBehind lines j t) :
    (lines.drop (j + 1)).findIdx Line.isStatement = t - (j + 1) := by
  obtain ⟨hjt, ⟨l, hl, hstatement⟩, hbetween⟩ := h
  have hlt : t < lines.length := (List.getElem?_eq_some_iff.mp hl).1
  rw [List.findIdx_eq (by rw [List.length_drop]; omega)]
  refine ⟨?_, fun s hs => ?_⟩
  · have hget : (lines.drop (j + 1))[t - (j + 1)]? = some l := by
      rw [List.getElem?_drop, Nat.add_sub_cancel' hjt, hl]
    obtain ⟨_, rfl⟩ := List.getElem?_eq_some_iff.mp hget
    exact hstatement
  · refine hbetween (j + 1 + s) _ (by omega) (by omega) ?_
    rw [← List.getElem?_drop]
    exact List.getElem?_eq_getElem _

theorem isStatement_of_label? {d : Line} {name : String} (h : d.label? = some name) :
    d.isStatement = false := by
  rw [Line.isStatement_eq, Line.marked, h, Option.isSome_some, Bool.or_true]
  rfl

/-- Behind a label stand as many instructions as are in front of it. -/
theorem FirstBehind.positionOf_eq (h : FirstBehind lines j t) {d : Line} (hj : lines[j]? = some d)
    (hd : d.isStatement = false) : positionOf lines t = positionOf lines j := by
  have hjt := h.behind
  have htake : lines.take t = lines.take j ++ (lines.drop j).take (t - j) := by
    rw [← List.take_add, Nat.add_sub_cancel' (Nat.le_of_lt hjt)]
  have hnone : ((lines.drop j).take (t - j)).countP Line.isStatement = 0 := by
    refine List.countP_eq_zero.mpr fun l hl => ?_
    obtain ⟨s, hs⟩ := List.mem_iff_getElem?.mp hl
    rw [List.getElem?_take] at hs
    split at hs
    · rw [List.getElem?_drop] at hs
      rcases Nat.eq_zero_or_pos s with rfl | hpos
      · cases hj.symm.trans hs
        simp [hd]
      · simp [h.between (j + s) l (by omega) (by omega) hs]
    · cases hs
  rw [positionOf, htake, List.countP_append, hnone]
  rfl

/-- Two lines do not define one label. -/
theorem eq_of_label (hnodup : (labelNames lines).Nodup) {j j' : Nat} {d d' : Line} {name : String}
    (hj : lines[j]? = some d) (hd : d.label? = some name) (hj' : lines[j']? = some d')
    (hd' : d'.label? = some name) : j = j' := by
  have hpairwise := List.pairwise_filterMap.mp hnodup
  obtain ⟨hlt, rfl⟩ := List.getElem?_eq_some_iff.mp hj
  obtain ⟨hlt', rfl⟩ := List.getElem?_eq_some_iff.mp hj'
  rcases Nat.lt_trichotomy j j' with h | h | h
  · exact absurd rfl (List.pairwise_iff_getElem.mp hpairwise j j' hlt hlt' h name hd name hd')
  · exact h
  · exact absurd rfl (List.pairwise_iff_getElem.mp hpairwise j' j hlt' hlt h name hd' name hd)

theorem exists_definition (hnodup : (labelNames lines).Nodup) {name : String} (h : name ∈ labelNames lines) :
    ∃ j : Nat, ∀ j' : Nat, (∃ d : Line, lines[j']? = some d ∧ d.label? = some name) ↔ j' = j := by
  obtain ⟨d, hmem, hd⟩ := List.mem_filterMap.mp h
  obtain ⟨j, hj⟩ := List.mem_iff_getElem?.mp hmem
  refine ⟨j, fun j' => ⟨?_, ?_⟩⟩
  · rintro ⟨d', hj', hd'⟩
    exact eq_of_label hnodup hj' hd' hj hd
  · rintro rfl
    exact ⟨d, hj, hd⟩

/-- The number that is put in the place of a label is found from the line that defines it on. -/
theorem lookup_of_label (hnodup : (labelNames lines).Nodup) {d : Line} {name : String} (hj : lines[j]? = some d)
    (hd : d.label? = some name) :
    (labelEntries 0 lines).lookup name =
      some (UInt32.ofNat (j + 2 + (lines.drop (j + 1)).findIdx Line.isStatement)) := by
  have hlt : j < lines.length := (List.getElem?_eq_some_iff.mp hj).1
  have hfront : name ∉ labelNames (lines.take j) := by
    intro h
    obtain ⟨d', hmem, hd'⟩ := List.mem_filterMap.mp h
    obtain ⟨j', hj'⟩ := List.mem_iff_getElem?.mp hmem
    rw [List.getElem?_take] at hj'
    split at hj'
    · have := eq_of_label hnodup hj' hd' hj hd
      omega
    · cases hj'
  have hlookup : (labelEntries 0 (lines.take j ++ d :: lines.drop (j + 1))).lookup name = _ :=
    lookup_labelEntries 0 hfront hd
  rwa [← eq_take_append_cons_drop hj, List.length_take_of_le (Nat.le_of_lt hlt), Nat.zero_add] at hlookup

/-- It is that of the first statement behind the label. -/
theorem lookup_of_firstBehind (hnodup : (labelNames lines).Nodup) {d : Line} {name : String}
    (hj : lines[j]? = some d) (hd : d.label? = some name) (ht : FirstBehind lines j t) :
    (labelEntries 0 lines).lookup name = some (UInt32.ofNat (t + 1)) := by
  have := ht.behind
  rw [lookup_of_label hnodup hj hd, ht.findIdx_eq]
  congr 2
  omega

end

/-! ## The number in its place -/

theorem raw_named (labels : LabelTable) (l : Line) : (l.named labels).raw = l.raw := by
  unfold Line.named
  split
  · unfold Line.retarget
    split <;> rfl
  · rfl

theorem ofWordAs?_toString (number : UInt32) :
    Operand.ofWordAs? .plain (toString number.toNat) = some (.literal (.ofFloat number.toFloat)) := by
  rw [Operand.ofWordAs?, Operand.ofWord?_toString, Number.toFloat_eq_ofNat]
  rfl

/-- A line with a target is a jump or a branch, and the number of a line becomes its destination. -/
theorem jump_of_target {labels : LabelTable} {l : Line} {name : String} {number : UInt32} {n : Nat}
    {i : Instruction} (hl : l.target? = some name) (hname : labels.lookup name = some number)
    (hread : (readLine Family.standard n (l.named labels)).result = .ok i) :
    i.operation.isJump = true ∧ i.destination = some (.literal (.ofFloat number.toFloat)) := by
  obtain ⟨word, rest, -, hjump, hnamed⟩ := words_named hl hname
  obtain ⟨s, hs, rfl⟩ := readLine_eq_ok_iff.mp hread
  rw [hnamed] at hs
  obtain ⟨_, _, f, hw, hf, hstatement⟩ := statementOf?_standard_iff.mp hs
  cases hw
  obtain ⟨hmem, rfl, -⟩ := matches_of_find? hf
  obtain ⟨op, hplain, hdestination⟩ :=
    Form.destination_of_statement? (standardForms_jump f hmem hjump) hstatement
  cases (ofWordAs?_toString number).symm.trans hplain
  have hoperation : s.operation = f.operation := Form.operation_of_fill hstatement
  refine ⟨?_, hdestination⟩
  rw [Statement.onLine, hoperation, ← standardForms_isJumpWord f hmem, hjump]

/-! ## Whole sources -/

section

variable {lines : List Line} {written : List Instruction} {k : Nat} {l : Line}

/-- What a statement yields stands at its position in the program and carries the number of its line. -/
theorem instruction_of_statement {families : List Family} {labels : LabelTable}
    (hy : Yields families labels 0 lines written) (hk : lines[k]? = some l) (hl : l.isStatement = true)
    (target : BuildTarget) (r : Requirements) :
    ∃ i, (programOf target r written).instructions[positionOf lines k]? = some (instructionFor target i) ∧
      i.line = UInt32.ofNat (k + 1) ∧ (readLine families (k + 1) (l.named labels)).result = .ok i := by
  obtain ⟨i, hi, hread⟩ := hy.instruction_at hk hl
  rw [Nat.zero_add] at hread
  obtain ⟨s, -, hs⟩ := readLine_eq_ok_iff.mp hread
  exact ⟨i, getElem?_programOf target r hi, by rw [hs]; rfl, hread⟩

/-- The destination of a jump to a label is the line of the first instruction behind the label. -/
theorem destination_of_label (hy : Yields Family.standard (labelEntries 0 lines) 0 lines written)
    (hnodup : (labelNames lines).Nodup) {j t : Nat} {d : Line} {name : String} (hk : lines[k]? = some l)
    (hl : l.target? = some name) (hj : lines[j]? = some d) (hd : d.label? = some name)
    (ht : FirstBehind lines j t) (target : BuildTarget) (r : Requirements) :
    ∃ i it, (programOf target r written).instructions[positionOf lines k]? = some i ∧
      (programOf target r written).instructions[positionOf lines t]? = some it ∧
      it.line = UInt32.ofNat (t + 1) ∧ i.destination = some (.literal (.ofFloat it.line.toFloat)) := by
  obtain ⟨i, hi, -, hread⟩ := instruction_of_statement hy hk (Line.isStatement_of_target? hl) target r
  obtain ⟨next, hnext, hstatement⟩ := ht.statement
  obtain ⟨it, hit, hline, -⟩ := instruction_of_statement hy hnext hstatement target r
  refine ⟨_, _, hi, hit, by rw [line_instructionFor, hline], ?_⟩
  rw [destination_instructionFor, line_instructionFor, hline]
  exact (jump_of_target hl (lookup_of_firstBehind hnodup hj hd ht) hread).2

end

/-- A jump to a label leads behind the instructions that stand in front of the label. -/
theorem jumpsTo_label {lines : List Line} {written : List Instruction} {target : BuildTarget} {r : Requirements}
    (hy : Yields Family.standard (labelEntries 0 lines) 0 lines written) (hnodup : (labelNames lines).Nodup)
    (hascending : (programOf target r written).Ascending) {k j s : Nat} {l d e : Line} {name : String}
    (hk : lines[k]? = some l) (hl : l.target? = some name) (hj : lines[j]? = some d)
    (hd : d.label? = some name) (hs : j < s) (he : lines[s]? = some e) (hstatement : e.isStatement = true) :
    Machine.JumpsTo (programOf target r written) (positionOf lines k) (positionOf lines j) := by
  obtain ⟨t, ht⟩ := exists_firstBehind hs he hstatement
  obtain ⟨i, it, hi, hit, -, hdestination⟩ := destination_of_label hy hnodup hk hl hj hd ht target r
  rw [← ht.positionOf_eq hj (isStatement_of_label? hd)]
  exact Machine.jumpsTo_line hascending hi hit hdestination

/-- Labels are resolved. A line names a label if it has the word of a jump or branch and behind it an identifier that
is no operand. Such a name is defined on exactly one line. If an instruction follows it, the line of the first that
does is the destination of the jump, and the jump, once it is taken, goes on there, provided that the lines can be
told apart by their numbers. The first line that names what is no label keeps the source from being assembled, and
so does the first line that defines a label again; the error says which line it is. -/
theorem label_resolved {resolver : Option Resolver} {limit : Nat} {source : String} {target : BuildTarget}
    {expanded : List Line} (hexpanded : (expand resolver limit source).result = .ok expanded) :
    let lines := statedLines expanded
    let result := (({ resolver, limit } : Assembler).assemble source target).result
    (∀ (l : Line) (name : String), l.target? = some name ↔
      l.consumed = false ∧ isIdentifier name.toList = true ∧ Operand.ofWord? name = none ∧
        ∃ word rest, l.words = word :: name :: rest ∧
          ∃ f ∈ standardForms, f.word = word ∧ f.operation.isJump = true) ∧
    (∀ p, result = .ok p → ∀ (k : Nat) (l : Line) (name : String), lines[k]? = some l → l.target? = some name →
      ∃ (j : Nat) (i : Instruction),
        (∀ j' : Nat, (∃ d : Line, lines[j']? = some d ∧ d.label? = some name) ↔ j' = j) ∧
        p.instructions[positionOf lines k]? = some i ∧ i.line = UInt32.ofNat (k + 1) ∧
        i.operation.isJump = true ∧
        ∀ (s : Nat) (d : Line), j < s → lines[s]? = some d → d.isStatement = true →
          ∃ (t : Nat) (it : Instruction), FirstBehind lines j t ∧
            p.instructions[positionOf lines t]? = some it ∧ it.line = UInt32.ofNat (t + 1) ∧
            i.destination = some (.literal (.ofFloat it.line.toFloat)) ∧
            (expanded.length < UInt32.size - 4 →
              Machine.JumpsTo p (positionOf lines k) (positionOf lines t))) ∧
    (∀ (front back : List Line) (l : Line) (name : String), lines = front ++ l :: back →
      (labelNames lines).Nodup →
      (∀ l' ∈ front, ∀ name', l'.target? = some name' → name' ∈ labelNames lines) →
      l.target? = some name → name ∉ labelNames lines →
        result = .error ⟨.labelNotFound, UInt32.ofNat (front.length + 1), l.text⟩) ∧
    (∀ (front back : List Line) (l : Line) (name : String), lines = front ++ l :: back →
      (labelNames front).Nodup → l.label? = some name → name ∈ labelNames front →
        result = .error ⟨.duplicateLabel, UInt32.ofNat (front.length + 1), l.text⟩) := by
  intro lines result
  refine ⟨fun l name => ?_, fun p h k l name hk hl => ?_,
    fun front back l name hlines hnodup hfront hl hname => ?_, fun front back l name hlines hfront hl hname => ?_⟩
  · simp only [Line.target?_eq_some_iff, isJumpWord_iff]
  · obtain ⟨expanded', written, hexpanded', hnodup, hdefined, hyields, rfl⟩ := assemble_eq_ok_iff.mp h
    cases hexpanded.symm.trans hexpanded'
    obtain ⟨j, hj⟩ := exists_definition hnodup (hdefined l (List.mem_of_getElem? hk) name hl)
    obtain ⟨d, hjd, hd⟩ := (hj j).mpr rfl
    obtain ⟨i, hi, hline, hread⟩ := instruction_of_statement hyields hk (Line.isStatement_of_target? hl) target
      (requirements (aliasedLines expanded))
    have hjump := (jump_of_target hl (lookup_of_label hnodup hjd hd) hread).1
    refine ⟨j, _, hj, hi, by rw [line_instructionFor, hline], by rwa [operation_instructionFor],
      fun s d' hs hds hstatement => ?_⟩
    obtain ⟨t, ht⟩ := exists_firstBehind hs hds hstatement
    obtain ⟨i', it, hi', hit, hitLine, hdestination⟩ := destination_of_label hyields hnodup hk hl hjd hd ht
      target (requirements (aliasedLines expanded))
    cases hi.symm.trans hi'
    refine ⟨t, it, ht, hit, hitLine, hdestination, fun hbound => ?_⟩
    exact Machine.jumpsTo_line (ascending_of_assemble h hexpanded hbound) hi hit hdestination
  · exact assemble_of_missing hexpanded hlines hnodup hfront hl hname
  · exact assemble_of_duplicate hexpanded hlines hfront hl hname

/-- The label stands in a file that comes in behind the jump, with other lines between it and the instruction. -/
theorem label_resolved_in_file :
    let resolver := some (Resolver.ofFiles [("lib", "out: # done\n\n.require stack 1\nret")])
    let p : Program :=
      { target := .release, requirements := { stack := 1 }, instructions := #[
        { operation := .branch .equal false, destination := some (.literal (.ofFloat 7)),
          left := some (.register 0), right := some (.literal (.ofFloat 0)), line := 2 },
        { operation := .unary .move, destination := some (.register 0),
          left := some (.literal (.ofFloat 1)), line := 3 },
        { operation := .ret, line := 7 }] }
    (({ resolver } : Assembler).assemble ".include lib\nbeq out r0 0\nmov r0 1" .release).result = .ok p ∧
      Machine.JumpsTo p 0 2 := by
  intro resolver p
  have h : (({ resolver } : Assembler).assemble ".include lib\nbeq out r0 0\nmov r0 1" .release).result = .ok p :=
    eq_ok_of_toOption (by decide +kernel)
  let expanded : List Line := [[".include", "lib"], ["beq", "out", "r0", "0"], ["mov", "r0", "1"], ["out:"], [],
    [".require", "stack", "1"], ["ret"]].map .ofRaw
  have hexpanded : (expand resolver 64 ".include lib\nbeq out r0 0\nmov r0 1").result = .ok expanded :=
    eq_ok_of_toOption (by decide +kernel)
  have hlines : statedLines expanded = [⟨[".include", "lib"], [".include", "lib"], true⟩,
      ⟨["beq", "out", "r0", "0"], ["beq", "out", "r0", "0"], false⟩, ⟨["mov", "r0", "1"], ["mov", "r0", "1"], false⟩,
      ⟨["out:"], ["out:"], false⟩, ⟨[], [], true⟩,
      ⟨[".require", "stack", "1"], [".require", "stack", "1"], true⟩, ⟨["ret"], ["ret"], false⟩] := by
    decide +kernel
  have hfirst : FirstBehind (statedLines expanded) 3 6 := by
    rw [hlines]
    refine ⟨by decide, ⟨_, rfl, by decide +kernel⟩, fun s l hs ht hl => ?_⟩
    obtain rfl | rfl : s = 4 ∨ s = 5 := by omega
    · cases hl
      rfl
    · cases hl
      rfl
  have htarget : (statedLines expanded)[1]? =
      some ⟨["beq", "out", "r0", "0"], ["beq", "out", "r0", "0"], false⟩ := by rw [hlines]; rfl
  have hlabel : (statedLines expanded)[3]? = some ⟨["out:"], ["out:"], false⟩ := by rw [hlines]; rfl
  have hret : (statedLines expanded)[6]? = some ⟨["ret"], ["ret"], false⟩ := by rw [hlines]; rfl
  obtain ⟨j, i, hj, -, -, -, hjumps⟩ := (label_resolved hexpanded).2.1 p h 1 _ "out" htarget (by decide +kernel)
  obtain rfl : 3 = j := (hj 3).mp ⟨_, hlabel, by decide +kernel⟩
  obtain ⟨t, it, ht, -, -, -, hjump⟩ := hjumps 6 _ (by decide) hret (by decide +kernel)
  obtain rfl := ht.unique hfirst
  refine ⟨h, ?_⟩
  have hposition : positionOf (statedLines expanded) 1 = 0 ∧ positionOf (statedLines expanded) 6 = 2 := by
    decide +kernel
  rw [← hposition.1, ← hposition.2]
  exact hjump (by decide)

end VirtualProcessor.Assembly
