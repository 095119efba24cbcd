import VirtualProcessor.Proofs.Assembly.Target
import VirtualProcessor.Proofs.Machine.Landing

/-!
# Labels at the end of a source

A label behind which there is no statement gets the number behind the last line (`lookup_of_noneBehind`). No statement
has that number, but the `ret` may have it that is added to a source which does not end in one
(`Yields.carries_iff`): it stands three lines behind the last statement (`Yields.addsReturn_iff`). So a jump to such a
label fails, unless just two lines stand behind the last statement and that is no `ret`: `trailing_label`.
-/

namespace VirtualProcessor

namespace Machine

/-- The jump at a position fails when it is to be taken, because no instruction carries the line it names. -/
def JumpFails (p : Program) (position : Nat) : Prop :=
  ∀ (δ : Type) [Peripheral δ] (m : Machine δ) (i : Instruction) (now : Nat), Holds p m →
    m.position = position → p.instructions[position]? = some i → m.Compares i →
      m.FailsWith p now i .invalidJump

theorem jumpFails_of_line {p : Program} {k : Nat} {i : Instruction} {line : UInt32} (hi : p.instructions[k]? = some i)
    (hd : i.destination = some (.literal (.ofFloat line.toFloat))) (hline : ∀ it ∈ p.instructions, it.line ≠ line) :
    JumpFails p k := by
  rintro δ _ m i' now hm rfl hi' hc
  obtain rfl : i = i' := Option.some.inj (hi.symm.trans hi')
  have hj : i.operation.isJump = true := by
    obtain ⟨_, _, _, _, _, _, ht⟩ := hc
    exact isJump_of_takes ht
  refine failsWith_of_aims hm hj (aims_of_compares hc hd) ?_ now
  rintro next ⟨⟨it, hit, hnames⟩, -⟩
  have hsame := lineOf?_eq_some_iff.mpr hnames
  rw [lineOf?_toFloat] at hsame
  exact hline it (Array.mem_of_getElem? hit) (Option.some.inj hsame).symm

end Machine

namespace Assembly

/-- No statement stands behind line `j`. -/
def NoneBehind (lines : List Line) (j : Nat) : Prop :=
  ∀ s l, j < s → lines[s]? = some l → l.isStatement = false

section

variable {lines : List Line} {j t : Nat}

/-- A label at the end gets the number behind the last line. -/
theorem lookup_of_noneBehind (hnodup : (labelNames lines).Nodup) {d : Line} {name : String}
    (hj : lines[j]? = some d) (hd : d.label? = some name) (hnone : NoneBehind lines j) :
    (labelEntries 0 lines).lookup name = some (UInt32.ofNat (lines.length + 1)) := by
  have hlt : j < lines.length := (List.getElem?_eq_some_iff.mp hj).1
  have hend : (lines.drop (j + 1)).findIdx Line.isStatement = lines.length - (j + 1) := by
    rw [← List.length_drop]
    refine List.findIdx_eq_length_of_false fun l hl => ?_
    obtain ⟨s, hs⟩ := List.mem_iff_getElem?.mp hl
    rw [List.getElem?_drop] at hs
    exact hnone (j + 1 + s) l (by omega) hs
  rw [lookup_of_label hnodup hj hd, hend]
  congr 2
  omega

theorem NoneBehind.eq {l l' : Line} {t' : Nat} (h : NoneBehind lines t) (hl : lines[t]? = some l)
    (hs : l.isStatement = true) (h' : NoneBehind lines t') (hl' : lines[t']? = some l')
    (hs' : l'.isStatement = true) : t = t' := by
  rcases Nat.lt_trichotomy t t' with hlt | heq | hlt
  · cases (h t' l' hlt hl').symm.trans hs'
  · exact heq
  · cases (h' t l hlt hl).symm.trans hs

/-- What is yielded last is yielded by the last statement. -/
theorem Yields.last {families : List Family} {labels : LabelTable} {front : List Instruction} {last : Instruction}
    (h : Yields families labels 0 lines (front ++ [last])) :
    ∃ t l, lines[t]? = some l ∧ l.isStatement = true ∧ NoneBehind lines t ∧ positionOf lines t = front.length ∧
      last.line = UInt32.ofNat (t + 1) := by
  obtain ⟨t, l, hl, hs, hposition, hread⟩ := h.line_at List.getElem?_concat_length
  obtain ⟨_, -, hlast⟩ := readLine_eq_ok_iff.mp hread
  have hcount : lines.countP Line.isStatement = front.length + 1 := by
    rw [← h.length_written, List.length_append]
    rfl
  have hrest : (lines.drop (t + 1)).countP Line.isStatement = 0 := by
    rw [eq_take_append_cons_drop hl, List.countP_append, List.countP_cons_of_pos hs, hposition] at hcount
    omega
  refine ⟨t, l, hl, hs, fun s l' hts hl' => ?_, hposition, ?_⟩
  · have hmem : (lines.drop (t + 1))[s - (t + 1)]? = some l' := by
      rw [List.getElem?_drop, Nat.add_sub_cancel' hts, hl']
    exact Bool.eq_false_iff.mpr (List.countP_eq_zero.mp hrest l' (List.mem_of_getElem? hmem))
  · rw [hlast, Nat.zero_add]
    rfl

end

/-! ## The `ret` that is added -/

/-- Instructions that do not end in `ret`, so that one with the given number is added. -/
def AddsReturn (written : List Instruction) (number : UInt32) : Prop :=
  ∃ front last, written = front ++ [last] ∧ last.operation ≠ .ret ∧ last.line + 3 = number

/-- A number that no written instruction carries is carried only by a `ret` that is added. -/
theorem Completes.carries_iff {written complete : List Instruction} (h : Completes written complete) {number : UInt32}
    (hwritten : ∀ i ∈ written, i.line ≠ number) (hzero : number ≠ 0) :
    (∃ i ∈ complete, i.line = number) ↔ AddsReturn written number := by
  cases h with
  | empty =>
    constructor
    · rintro ⟨i, hi, hline⟩
      obtain rfl := List.mem_singleton.mp hi
      exact absurd hline.symm hzero
    · rintro ⟨front, last, hnil, -⟩
      exact absurd hnil.symm (List.append_ne_nil_of_right_ne_nil _ (List.cons_ne_nil _ _))
  | complete front hret =>
    constructor
    · rintro ⟨i, hi, hline⟩
      exact absurd hline (hwritten i hi)
    · rintro ⟨front', last', heq, hne, -⟩
      obtain ⟨-, heq⟩ := List.append_inj' heq rfl
      cases heq
      exact absurd hret hne
  | @incomplete front last hne =>
    constructor
    · rintro ⟨i, hi, hline⟩
      rcases List.mem_append.mp hi with hi | hi
      · exact absurd hline (hwritten i hi)
      · obtain rfl := List.mem_singleton.mp hi
        exact ⟨front, last, rfl, hne, hline⟩
    · rintro ⟨front', last', heq, -, hline⟩
      obtain ⟨-, heq⟩ := List.append_inj' heq rfl
      cases heq
      exact ⟨_, List.mem_append_right _ List.mem_cons_self, hline⟩

theorem AddsReturn.back {written : List Instruction} {number : UInt32} (h : AddsReturn written number)
    (target : BuildTarget) (r : Requirements) :
    (programOf target r written).instructions.back? = some (instructionFor target (addedReturn number)) := by
  obtain ⟨front, last, rfl, hne, rfl⟩ := h
  have hmissing : missingReturn (front ++ [last]) = [addedReturn (last.line + 3)] := by
    unfold missingReturn
    rw [List.getLast?_concat]
    exact if_neg hne
  rw [← Array.getLast?_toList, instructions_programOf, hmissing, List.getLast?_map, List.getLast?_concat]
  rfl

/-- Two lines stand behind the last statement of a source, and it yields another instruction than `ret`. -/
def ReturnAtEnd (lines : List Line) (p : Program) : Prop :=
  ∃ t l i, lines[t]? = some l ∧ l.isStatement = true ∧ NoneBehind lines t ∧ t + 3 = lines.length ∧
    p.instructions[positionOf lines t]? = some i ∧ i.operation ≠ .ret

section

variable {families : List Family} {labels : LabelTable} {lines : List Line} {written : List Instruction}

/-- The number behind the last line is carried by no instruction but a `ret` that is added. -/
theorem Yields.carries_iff (h : Yields families labels 0 lines written) (hbound : lines.length + 4 < UInt32.size)
    (target : BuildTarget) (r : Requirements) :
    (∃ i ∈ (programOf target r written).instructions, i.line = UInt32.ofNat (lines.length + 1)) ↔
      AddsReturn written (UInt32.ofNat (lines.length + 1)) := by
  have hnumber : (UInt32.ofNat (lines.length + 1)).toNat = lines.length + 1 := UInt32.toNat_ofNat_of_lt' (by omega)
  have hwritten : ∀ i ∈ written, i.line ≠ UInt32.ofNat (lines.length + 1) := by
    intro i hi heq
    obtain ⟨n, -, hn, hline⟩ := h.line_of_mem hi
    have hsame := congrArg UInt32.toNat (hline.symm.trans heq)
    rw [hnumber, UInt32.toNat_ofNat_of_lt' (by omega)] at hsame
    omega
  have hzero : UInt32.ofNat (lines.length + 1) ≠ 0 := by
    intro heq
    rw [heq] at hnumber
    cases hnumber
  rw [← (completes_missingReturn written).carries_iff hwritten hzero]
  simp only [← Array.mem_toList_iff, instructions_programOf, List.mem_map, exists_exists_and_eq_and,
    line_instructionFor]

theorem ofNat_add_three {n t : Nat} (hn : n + 4 < UInt32.size) (ht : t < n) :
    UInt32.ofNat (t + 1) + 3 = UInt32.ofNat (n + 1) ↔ t + 3 = n := by
  have hsize : UInt32.size = 4294967296 := rfl
  rw [← UInt32.toNat_inj, UInt32.toNat_add, UInt32.toNat_ofNat_of_lt' (by omega),
    UInt32.toNat_ofNat_of_lt' (by omega), show (3 : UInt32).toNat = 3 from rfl]
  omega

/-- A `ret` is added three lines behind the last statement. -/
theorem Yields.addsReturn_iff (h : Yields families labels 0 lines written) (hbound : lines.length + 4 < UInt32.size)
    (target : BuildTarget) (r : Requirements) :
    AddsReturn written (UInt32.ofNat (lines.length + 1)) ↔ ReturnAtEnd lines (programOf target r written) := by
  constructor
  · rintro ⟨front, last, rfl, hne, hline⟩
    obtain ⟨t, l, hl, hs, hnone, hposition, hlast⟩ := h.last
    rw [hlast, ofNat_add_three hbound (List.getElem?_eq_some_iff.mp hl).1] at hline
    refine ⟨t, l, instructionFor target last, hl, hs, hnone, hline, ?_, ?_⟩
    · rw [hposition]
      exact getElem?_programOf target r List.getElem?_concat_length
    · rw [operation_instructionFor]
      exact hne
  · rintro ⟨t, l, i, hl, hs, hnone, hlength, hi, hne⟩
    obtain ⟨front, last, rfl⟩ : ∃ front last, written = front ++ [last] := by
      obtain ⟨i', hi', -⟩ := h.instruction_at hl hs
      rcases List.eq_nil_or_concat written with rfl | ⟨front, last, rfl⟩
      · cases hi'
      · exact ⟨front, last, List.concat_eq_append ..⟩
    obtain ⟨t', l', hl', hs', hnone', hposition, hlast⟩ := h.last
    obtain rfl := hnone.eq hl hs hnone' hl' hs'
    rw [hposition, getElem?_programOf target r List.getElem?_concat_length] at hi
    obtain rfl := Option.some.inj hi
    rw [operation_instructionFor] at hne
    refine ⟨front, last, rfl, hne, ?_⟩
    rw [hlast]
    exact (ofNat_add_three hbound (List.getElem?_eq_some_iff.mp hl).1).mpr hlength

end

/-! ## Whole sources -/

/-- A label behind which there is no statement is bound to the number behind the last line. An instruction carries
that number in one case only: just two lines stand behind the last statement, and that is no `ret`. Then the `ret`
that is added has the number, and jumps to the label lead there. In all other cases such a jump, when it is to be
taken, fails with an invalid jump. The lines have to be such that they can be told apart by their numbers. -/
theorem trailing_label {resolver : Option Resolver} {limit : Nat} {source : String} {target : BuildTarget}
    {expanded : List Line} {p : Program}
    (h : (({ resolver, limit } : Assembler).assemble source target).result = .ok p)
    (hexpanded : (expand resolver limit source).result = .ok expanded) (hbound : expanded.length < UInt32.size - 4)
    {j : Nat} {d : Line} {name : String} (hj : (statedLines expanded)[j]? = some d) (hd : d.label? = some name)
    (hnone : NoneBehind (statedLines expanded) j) :
    let lines := statedLines expanded
    let number := UInt32.ofNat (lines.length + 1)
    (∃ prepared, (({ resolver, limit } : Assembler).prepare source).result = .ok prepared ∧
      prepared.labels.lookup name = some number) ∧
    ((∃ i ∈ p.instructions, i.line = number) ↔ ReturnAtEnd lines p) ∧
    (¬ ReturnAtEnd lines p → ∀ (k : Nat) (l : Line), lines[k]? = some l → l.target? = some name →
      Machine.JumpFails p (positionOf lines k)) ∧
    (ReturnAtEnd lines p →
      ∃ last, p.instructions.back? = some last ∧ last.operation = .ret ∧ last.line = number ∧
        ∀ (k : Nat) (l : Line), lines[k]? = some l → l.target? = some name →
          Machine.JumpsTo p (positionOf lines k) (p.size - 1)) := by
  intro lines number
  obtain ⟨expanded', written, hexpanded', hnodup, hdefined, hyields, rfl⟩ := assemble_eq_ok_iff.mp h
  cases hexpanded.symm.trans hexpanded'
  have hlookup : (labelEntries 0 lines).lookup name = some number := lookup_of_noneBehind hnodup hj hd hnone
  have hlines : lines.length + 4 < UInt32.size := by
    rw [length_statedLines]
    omega
  have hcarries := hyields.carries_iff hlines target (requirements (aliasedLines expanded))
  have hadds := hyields.addsReturn_iff hlines target (requirements (aliasedLines expanded))
  have hdestination {k : Nat} {l : Line} (hk : lines[k]? = some l) (hl : l.target? = some name) :
      ∃ i, (programOf target (requirements (aliasedLines expanded)) written).instructions[positionOf lines k]? =
        some i ∧ i.destination = some (.literal (.ofFloat number.toFloat)) := by
    obtain ⟨i, hi, -, hread⟩ := instruction_of_statement hyields hk (Line.isStatement_of_target? hl) target
      (requirements (aliasedLines expanded))
    refine ⟨_, hi, ?_⟩
    rw [destination_instructionFor]
    exact (jump_of_target hl hlookup hread).2
  refine ⟨⟨_, (prepare_eq_ok_iff hexpanded).mpr ⟨hnodup, hdefined, rfl⟩, hlookup⟩, hcarries.trans hadds,
    fun hnot k l hk hl => ?_, fun hend => ?_⟩
  · obtain ⟨i, hi, hd⟩ := hdestination hk hl
    refine Machine.jumpFails_of_line hi hd fun it hit hline => ?_
    exact hnot (hadds.mp (hcarries.mp ⟨it, hit, hline⟩))
  · have hback := (hadds.mpr hend).back target (requirements (aliasedLines expanded))
    refine ⟨_, hback, operation_instructionFor .., line_instructionFor .., fun k l hk hl => ?_⟩
    obtain ⟨i, hi, hd⟩ := hdestination hk hl
    rw [Array.back?_eq_getElem?] at hback
    refine Machine.jumpsTo_line (ascending_of_assemble h hexpanded hbound) hi hback ?_
    rw [line_instructionFor]
    exact hd

/-- The label stands in a file that comes in at the end, with two empty lines behind it. -/
theorem trailing_label_in_file :
    let resolver := some (Resolver.ofFiles [("lib", "out: # done\n\n")])
    let p : Program :=
      { target := .release, instructions := #[
        { operation := .jump false, destination := some (.literal (.ofFloat 6)), line := 2 },
        { operation := .ret, line := 5 }] }
    (({ resolver } : Assembler).assemble ".include lib\nj out" .release).result = .ok p ∧
      (∃ prepared, (({ resolver } : Assembler).prepare ".include lib\nj out").result = .ok prepared ∧
        prepared.labels.lookup "out" = some 6) ∧
      Machine.JumpFails p 0 := by
  intro resolver p
  have h : (({ resolver } : Assembler).assemble ".include lib\nj out" .release).result = .ok p :=
    eq_ok_of_toOption (by decide +kernel)
  let expanded : List Line := [[".include", "lib"], ["j", "out"], ["out:"], [], []].map .ofRaw
  have hexpanded : (expand resolver 64 ".include lib\nj out").result = .ok expanded :=
    eq_ok_of_toOption (by decide +kernel)
  have hlines : statedLines expanded = [⟨[".include", "lib"], [".include", "lib"], true⟩,
      ⟨["j", "out"], ["j", "out"], false⟩, ⟨["out:"], ["out:"], false⟩, ⟨[], [], true⟩, ⟨[], [], true⟩] := by
    decide +kernel
  have htarget : (statedLines expanded)[1]? = some ⟨["j", "out"], ["j", "out"], false⟩ := by rw [hlines]; rfl
  have hlabel : (statedLines expanded)[2]? = some ⟨["out:"], ["out:"], false⟩ := by rw [hlines]; rfl
  have hnone : NoneBehind (statedLines expanded) 2 := by
    rw [hlines]
    intro s l hs hl
    have hlt : s < 5 := (List.getElem?_eq_some_iff.mp hl).1
    obtain rfl | rfl : s = 3 ∨ s = 4 := by omega
    · cases hl
      rfl
    · cases hl
      rfl
  obtain ⟨hbound, -, hfails, -⟩ :=
    trailing_label h hexpanded (by decide) hlabel (show _ = some "out" by decide +kernel) hnone
  have hposition : positionOf (statedLines expanded) 1 = 0 := by decide +kernel
  refine ⟨h, ?_, ?_⟩
  · obtain ⟨prepared, hprepared, hlookup⟩ := hbound
    refine ⟨prepared, hprepared, hlookup.trans ?_⟩
    rw [hlines]
    rfl
  · rw [← hposition]
    refine hfails ?_ 1 _ htarget (by decide +kernel)
    rintro ⟨t, l, i, hl, hs, -, hlength, -⟩
    rw [hlines] at hl hlength
    obtain rfl : t = 2 := Nat.succ.inj (Nat.succ.inj (Nat.succ.inj hlength))
    cases hl
    revert hs
    decide +kernel

/-- With one empty line behind the label, the `ret` that is added has the number of the label. -/
theorem trailing_label_on_return :
    let p : Program :=
      { target := .release, instructions := #[
        { operation := .jump false, destination := some (.literal (.ofFloat 4)), line := 1 },
        { operation := .ret, line := 4 }] }
    (({} : Assembler).assemble "j end\nend:\n" .release).result = .ok p ∧
      (({} : Assembler).prepare "j end\nend:\n").result.toOption.map (·.labels) = some [("end", 4)] ∧
      Machine.JumpsTo p 0 1 := by
  intro p
  refine ⟨eq_ok_of_toOption (by decide +kernel), by decide +kernel, ?_⟩
  have hascending : p.Ascending := by
    unfold Program.Ascending
    decide +kernel
  have hi : p.instructions[0]? =
      some { operation := .jump false, destination := some (.literal (.ofFloat 4)), line := 1 } := rfl
  have hj : p.instructions[1]? = some { operation := .ret, line := 4 } := rfl
  exact Machine.jumpsTo_line hascending hi hj (by decide +kernel)

end Assembly

end VirtualProcessor
