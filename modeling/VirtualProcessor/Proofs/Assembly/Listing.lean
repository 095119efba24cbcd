import VirtualProcessor.Proofs.Assembly.Cleaning
import VirtualProcessor.Proofs.Assembly.Passes
import VirtualProcessor.Proofs.Operand.Writing

/-!
# Listed instructions are statements

An instruction is listed by its mnemonic and its operands. Of the table of forms two things are decided: the operands of
a form come in the order in which they are listed (`standardForms_order`), and the mnemonic of an operation, with as
many operands, finds a form with the same places (`standardForms_mnemonic`). Transfers are apart: their mnemonic is no
word. Hence the listing of an instruction that was assembled is read as the same statement (`assemble_listed`).
-/

namespace VirtualProcessor.Assembly

/-! ## Operands of statements -/

/-- The operands that are present, in the order destination, left, right. -/
def Statement.operands (s : Statement) : List Operand := [s.destination, s.left, s.right].filterMap id

/-- The statement that an instruction was read from. -/
def statementOf (i : Instruction) : Statement := ⟨i.operation, i.destination, i.left, i.right⟩

namespace Form

/-- The words are operands that the places admit. -/
inductive Takes : List (Place × Operand.Kind) → List String → List Operand → Prop
  | nil : Takes [] [] []
  | cons {slots : List (Place × Operand.Kind)} {words : List String} {ops : List Operand} (place : Place)
    {kind : Operand.Kind} {w : String} {op : Operand} (hop : Operand.ofWordAs? kind w = some op)
    (h : Takes slots words ops) : Takes ((place, kind) :: slots) (w :: words) (op :: ops)

/-- The statement with operands put into places. -/
def putAll (s : Statement) (places : List Place) (ops : List Operand) : Statement :=
  (places.zip ops).foldl (fun s p => s.put p.2 p.1) s

theorem operation_putAll (s : Statement) (places : List Place) (ops : List Operand) :
    (putAll s places ops).operation = s.operation := by
  induction places generalizing s ops with
  | nil => rfl
  | cons place places ih =>
    cases ops with
    | nil => rfl
    | cons op ops => exact (ih (s.put op place) ops).trans (by cases place <;> rfl)

section

variable {slots : List (Place × Operand.Kind)} {words : List String} {ops : List Operand} {s s' : Statement}

theorem Takes.length_eq (h : Takes slots words ops) : words.length = slots.length ∧ ops.length = slots.length := by
  induction h with
  | nil => exact ⟨rfl, rfl⟩
  | cons _ _ _ ih => exact ⟨congrArg Nat.succ ih.1, congrArg Nat.succ ih.2⟩

theorem Takes.fill_eq (h : Takes slots words ops) (s : Statement) :
    fill s slots words = some (putAll s (slots.map Prod.fst) ops) := by
  induction h generalizing s with
  | nil => rfl
  | cons place hop _ ih =>
    rw [fill, hop]
    exact ih _

theorem exists_takes (hlength : slots.length = words.length) (h : fill s slots words = some s') :
    ∃ ops, Takes slots words ops := by
  induction slots generalizing s words with
  | nil =>
    obtain rfl : words = [] := List.eq_nil_of_length_eq_zero hlength.symm
    exact ⟨[], .nil⟩
  | cons slot slots ih =>
    obtain ⟨place, kind⟩ := slot
    obtain _ | ⟨w, words⟩ := words
    · cases hlength
    rw [fill] at h
    cases hop : Operand.ofWordAs? kind w with
    | none =>
      rw [hop] at h
      cases h
    | some op =>
      rw [hop] at h
      obtain ⟨ops, hops⟩ := ih (Nat.succ.inj hlength) h
      exact ⟨op :: ops, .cons place hop hops⟩

/-- Operands can be written as they can be taken again. -/
theorem Takes.text (h : Takes slots words ops) (hfinite : ∀ op ∈ ops, op.isInfinite = false) :
    Takes slots (ops.map Operand.text) ops := by
  induction h with
  | nil => exact .nil
  | cons place hop _ ih =>
    obtain ⟨hread, hadmits⟩ := Option.filter_eq_some_iff.mp hop
    obtain ⟨hfirst, hothers⟩ := List.forall_mem_cons.mp hfinite
    refine .cons place ?_ (ih hothers)
    rw [Operand.ofWordAs?, Operand.ofWord?_text hread hfirst]
    exact Option.filter_eq_some_iff.mpr ⟨rfl, hadmits⟩

theorem Takes.isSome (h : Takes slots words ops) : ∀ w ∈ words, (Operand.ofWord? w).isSome :=
  ofWord?_isSome_of_fill h.length_eq.1.symm (h.fill_eq { operation := .nop })

end

end Form

/-! ## What the table holds -/

/-- The orders in which forms have their places. -/
def orders : List (List Place) :=
  [[], [.destination], [.left], [.destination, .left], [.left, .right], [.destination, .left, .right]]

theorem standardForms_order : ∀ f ∈ standardForms, f.slots.map Prod.fst ∈ orders := by decide +kernel

/-- Operands that are put into their places in such an order are listed as they were. -/
theorem operands_putAll {places : List Place} (hplaces : places ∈ orders) {ops : List Operand}
    (hlength : ops.length = places.length) (operation : Operation) :
    (Form.putAll { operation } places ops).operands = ops := by
  simp only [orders, List.mem_cons, List.not_mem_nil, or_false] at hplaces
  rcases hplaces with rfl | rfl | rfl | rfl | rfl | rfl
  · obtain rfl := List.eq_nil_of_length_eq_zero hlength
    rfl
  · obtain ⟨a, rfl⟩ := List.length_eq_one_iff.mp hlength
    rfl
  · obtain ⟨a, rfl⟩ := List.length_eq_one_iff.mp hlength
    rfl
  · obtain ⟨a, b, rfl⟩ := List.length_eq_two.mp hlength
    rfl
  · obtain ⟨a, b, rfl⟩ := List.length_eq_two.mp hlength
    rfl
  · obtain ⟨a, b, c, rfl⟩ := List.length_eq_three.mp hlength
    rfl

/-- The mnemonic of an operation is a word of a form that takes the same operands. -/
theorem standardForms_mnemonic : ∀ f ∈ standardForms, f.operation ≠ .transfer →
    (standardForms.find? (·.matchesWord f.operation.mnemonic f.slots.length)).any
      (fun g => g.operation = f.operation ∧ g.slots = f.slots) = true := by
  decide +kernel

theorem standardForms_mnemonic_chars : ∀ f ∈ standardForms, f.operation.mnemonic.toList ≠ [] ∧
    f.operation.mnemonic.toList.all (fun c => !isSeparator c && !startsComment c) = true := by
  decide +kernel

theorem isWord_mnemonic {f : Form} (hf : f ∈ standardForms) : IsWord f.operation.mnemonic := by
  obtain ⟨hne, hchars⟩ := standardForms_mnemonic_chars f hf
  refine ⟨fun he => hne (by rw [he]; rfl), fun c hc => ?_⟩
  simpa using List.all_eq_true.mp hchars c hc

theorem isWord_of_ofWord? {w : String} (h : (Operand.ofWord? w).isSome) : IsWord w := by
  refine ⟨?_, fun c hc => ?_⟩
  · rintro rfl
    cases h
  · have hchar := Operand.isOperandChar_of_ofWord? h c hc
    constructor
    · refine Bool.eq_false_iff.mpr fun hseparator => ?_
      simp only [isSeparator, Bool.or_eq_true, beq_iff_eq] at hseparator
      rcases hseparator with (rfl | rfl) | rfl <;> exact absurd hchar (by decide)
    · refine Bool.eq_false_iff.mpr fun hcomment => ?_
      simp only [startsComment, Bool.or_eq_true, beq_iff_eq] at hcomment
      rcases hcomment with rfl | rfl <;> exact absurd hchar (by decide)

/-! ## Listed statements -/

/-- The words with which a statement is listed. -/
def Statement.listed (s : Statement) : List String := s.operation.mnemonic :: s.operands.map Operand.text

section

variable {f : Form} {words : List String} {s : Statement}

/-- A statement that can be read is listed by words that are read as the same statement. -/
theorem statementOf?_listed (hf : f ∈ standardForms) (hlength : f.slots.length = words.length)
    (hs : f.statement? words = some s) (htransfer : s.operation ≠ .transfer)
    (hfinite : ∀ op ∈ s.operands, op.isInfinite = false) :
    statementOf? Family.standard s.listed = some s ∧ ∀ w ∈ s.listed, IsWord w := by
  obtain ⟨ops, hops⟩ := Form.exists_takes hlength hs
  obtain rfl : Form.putAll { operation := f.operation } (f.slots.map Prod.fst) ops = s :=
    Option.some.inj ((hops.fill_eq _).symm.trans hs)
  have hcount : ops.length = (f.slots.map Prod.fst).length := by rw [List.length_map, hops.length_eq.2]
  have hoperands := operands_putAll (standardForms_order f hf) hcount f.operation
  unfold Statement.listed
  rw [Form.operation_putAll] at htransfer ⊢
  rw [hoperands] at hfinite ⊢
  have htaken := hops.text hfinite
  refine ⟨?_, ?_⟩
  · obtain ⟨g, hfind, hg⟩ := (Option.any_eq_true _ _).mp (standardForms_mnemonic f hf htransfer)
    obtain ⟨hoperation, hslots⟩ := of_decide_eq_true hg
    refine statementOf?_standard_iff.mpr ⟨_, _, g, rfl, ?_, ?_⟩
    · rw [htaken.length_eq.1]
      exact hfind
    · rw [Form.statement?, hoperation, hslots]
      exact htaken.fill_eq _
  · exact List.forall_mem_cons.mpr ⟨isWord_mnemonic hf, fun w hw => isWord_of_ofWord? (htaken.isSome w hw)⟩

end

/-! ## Assembled programs -/

/-- The instructions of a program that the instruction set assembles are statements, a `ret` that is added as well. -/
theorem exists_statement?_of_assemble {a : Assembler} (ha : a.families = Family.standard) {source : String}
    {target : BuildTarget} {p : Program} (h : (a.assemble source target).result = .ok p) {i : Instruction}
    (hi : i ∈ p.instructions) :
    ∃ f ∈ standardForms, ∃ words, f.slots.length = words.length ∧ f.statement? words = some (statementOf i) := by
  obtain ⟨expanded, written, -, -, -, hyields, rfl⟩ := assemble_eq_ok_iff.mp h
  rw [ha] at hyields
  rw [← Array.mem_toList_iff, instructions_programOf] at hi
  obtain ⟨j, hj, rfl⟩ := List.mem_map.mp hi
  have hsame : statementOf (instructionFor target j) = statementOf j := by cases target <;> rfl
  rw [hsame]
  clear hi hsame
  revert j
  refine (completes_missingReturn written).forall_mem (fun j hj => ?_) fun line => ?_
  · obtain ⟨n, hn⟩ := List.mem_iff_getElem?.mp hj
    obtain ⟨k, l, -, -, -, hread⟩ := hyields.line_at hn
    obtain ⟨s, hs, rfl⟩ := readLine_eq_ok_iff.mp hread
    obtain ⟨word, words, f, -, hfind, hs⟩ := statementOf?_standard_iff.mp hs
    obtain ⟨hf, -, hlength⟩ := matches_of_find? hfind
    exact ⟨f, hf, words, hlength, hs⟩
  · exact ⟨⟨"ret", .ret, []⟩, by simp [standardForms, standardTables, bareForms], [], rfl, rfl⟩

/-- The listing of an instruction that was assembled, a transfer or one with an infinite literal apart, can be assembled
again. As a line of a source, it has the words that stand between its blanks, and whatever line has these words is read
as an instruction with the same operation and the same operands. -/
theorem assemble_listed {a : Assembler} (ha : a.families = Family.standard) {source : String} {target : BuildTarget}
    {p : Program} (h : (a.assemble source target).result = .ok p) {i : Instruction} (hi : i ∈ p.instructions)
    (htransfer : i.operation ≠ .transfer) (hfinite : ∀ op ∈ i.operands, op.isInfinite = false) :
    ∃ words, wordsOf i.decoded.toList = words ∧ Text.fields (· == ' ') i.decoded.toList = words.map String.toList ∧
      ∀ number l, l.words = words → ∃ j, (readLine Family.standard number l).result = .ok j ∧
        j.operation = i.operation ∧ j.destination = i.destination ∧ j.left = i.left ∧ j.right = i.right := by
  obtain ⟨f, hf, written, hlength, hs⟩ := exists_statement?_of_assemble ha h hi
  obtain ⟨hread, hwords⟩ := statementOf?_listed hf hlength hs htransfer hfinite
  have hdecoded : i.decoded = textOf (statementOf i).listed := rfl
  have hne : (statementOf i).listed ≠ [] := List.cons_ne_nil _ _
  rw [hdecoded]
  refine ⟨_, wordsOf_textOf hne hwords, fields_textOf hne fun w hw => (hwords w hw).no_blank, fun number l hl => ?_⟩
  refine ⟨(statementOf i).onLine number l, readLine_eq_ok_iff.mpr ⟨_, ?_, rfl⟩, rfl, rfl, rfl, rfl⟩
  rw [hl]
  exact hread

/-- A branch with another word for its operation, another separator and more places than it needs. -/
theorem assemble_listed_branch :
    let branch : Instruction :=
      { operation := .branch .notEqual false, destination := some (.literal (.ofFloat 2)),
        left := some (.device 1 2), right := some (.literal (.ofFloat (-0.5))), line := 1,
        rawText := "bneq 2 d1_2 -0.500", text := "bneq 2 d1_2 -0.500" }
    let p : Program := { target := .debug, instructions := #[branch, addedReturn 4] }
    (({ } : Assembler).assemble "bneq 2 d1_2 -0.500" .debug).result = .ok p ∧
      branch.decoded = "bne 2 d1.2 -0.5" ∧
      ∃ words, wordsOf branch.decoded.toList = words ∧
        Text.fields (· == ' ') branch.decoded.toList = words.map String.toList ∧
        ∀ number l, l.words = words → ∃ j, (readLine Family.standard number l).result = .ok j ∧
          j.operation = branch.operation ∧ j.destination = branch.destination ∧ j.left = branch.left ∧
          j.right = branch.right := by
  intro branch p
  have hassembled : (({ } : Assembler).assemble "bneq 2 d1_2 -0.500" .debug).result = .ok p :=
    eq_ok_of_toOption (by decide +kernel)
  exact ⟨hassembled, by decide +kernel, assemble_listed rfl hassembled (by simp [p]) (by decide) (by decide +kernel)⟩

end VirtualProcessor.Assembly
