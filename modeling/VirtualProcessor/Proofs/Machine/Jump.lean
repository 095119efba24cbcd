import VirtualProcessor.Proofs.Assembly.Expansion
import VirtualProcessor.Proofs.Assembly.Passes
import VirtualProcessor.Proofs.Machine.Link
import VirtualProcessor.Proofs.Number.Word

/-!
# Where jumps lead

A jump names a line by a number, and the machine looks the line up. In a program whose lines ascend every
instruction is found by its own line (`destination?_line`), and the line that a jump leaves as the return
address is that of the instruction behind it (`Ascending.returnLine_eq`). So

* `jumpsTo_line`: a jump to the line of an instruction leads to that instruction;
* `returnsTo_next`: a jump back to what a jump has left as the return address leads right behind that jump.

`Reached` are the machines that a program can get to, however the host goes about it (`Reached.runDuring`).
Programs that are assembled have ascending lines, and they end in `ret`, so that there is always an instruction
behind a jump: `call_returns`.
-/

namespace VirtualProcessor

/-! ## Lines -/

namespace Program

/-- The lines of the instructions ascend. -/
def Ascending (p : Program) : Prop := p.instructions.toList.Pairwise (·.line < ·.line)

variable {p : Program} {k : Nat} {i : Instruction}

/-- An instruction is found by its line. -/
theorem Ascending.getElem?_ofProgram (h : p.Ascending) (hk : p.instructions[k]? = some i) :
    (LineIndex.ofProgram p)[i.line]? = some k := by
  rw [LineIndex.getElem?_ofProgram, List.findIdx?_eq_some_iff_getElem]
  rw [← Array.getElem?_toList] at hk
  obtain ⟨hlt, rfl⟩ := List.getElem?_eq_some_iff.mp hk
  refine ⟨hlt, beq_self_eq_true _, fun j hj => ?_⟩
  have hline := List.pairwise_iff_getElem.mp h j k (by omega) hlt hj
  simpa using UInt32.ne_of_lt hline

/-- The line behind a jump is that of the next instruction. -/
theorem Ascending.returnLine_eq (h : p.Ascending) (hk : p.instructions[k]? = some i) {next : Instruction}
    (hnext : p.instructions[k + 1]? = some next) : p.returnLine k i.line = next.line ∧ 0 < next.line := by
  have hline : i.line < next.line := by
    rw [← Array.getElem?_toList] at hk hnext
    obtain ⟨hlt, rfl⟩ := List.getElem?_eq_some_iff.mp hk
    obtain ⟨hlt', rfl⟩ := List.getElem?_eq_some_iff.mp hnext
    exact List.pairwise_iff_getElem.mp h k (k + 1) hlt hlt' (Nat.lt_succ_self k)
  have hsize : k + 1 < p.size := (Array.getElem?_eq_some_iff.mp hnext).1
  obtain ⟨count, hcount⟩ : ∃ count, p.size - (k + 1) = count + 1 := ⟨p.size - (k + 1) - 1, by omega⟩
  constructor
  · rw [returnLine, hcount, lineAfter, hnext]
    exact if_pos hline
  · exact UInt32.lt_of_le_of_lt UInt32.zero_le hline

/-- The last instruction is `ret`. -/
def EndsInRet (p : Program) : Prop := ∃ last, p.instructions.back? = some last ∧ last.operation = .ret

theorem EndsInRet.size_pos (h : p.EndsInRet) : 0 < p.size := by
  obtain ⟨last, hlast, -⟩ := h
  rw [Array.back?_eq_getElem?] at hlast
  exact Nat.lt_of_le_of_lt (Nat.zero_le _) (Array.getElem?_eq_some_iff.mp hlast).1

/-- Only behind `ret` there may be no instruction. -/
theorem EndsInRet.succ_lt_size (h : p.EndsInRet) (hk : p.instructions[k]? = some i) (hi : i.operation ≠ .ret) :
    k + 1 < p.size := by
  obtain ⟨last, hlast, hret⟩ := h
  have hlt : k < p.instructions.size := (Array.getElem?_eq_some_iff.mp hk).1
  have hne : k ≠ p.instructions.size - 1 := by
    rintro rfl
    rw [Array.back?_eq_getElem?, hk] at hlast
    cases hlast
    exact hi hret
  show k + 1 < p.instructions.size
  omega

end Program

/-- The instruction `j ra`. -/
def Instruction.IsReturn (i : Instruction) : Prop :=
  i.operation = .jump false ∧ i.destination = some .returnAddress ∧ i.left = none ∧ i.right = none

namespace Machine

theorem lineOf?_ofNat {n : Nat} (hn : n < 2 ^ 32) : lineOf? (Float.ofNat n) = some (UInt32.ofNat n) := by
  have hlow : (0 : Float) ≤ Float.ofNat n := Number.ofNat_le_ofNat (Nat.zero_le n) (by omega)
  have hhigh : Float.ofNat n ≤ 4294967295 :=
    Number.ofNat_le_ofNat (show n ≤ 4294967295 by omega) (by decide)
  rw [lineOf?, if_pos ⟨hlow, hhigh⟩, Number.toWord_ofNat hn]

theorem lineOf?_toFloat (w : UInt32) : lineOf? w.toFloat = some w := by
  rw [Number.toFloat_eq_ofNat, lineOf?_ofNat w.toNat_lt, UInt32.ofNat_toNat]

theorem destination?_line {p : Program} (h : p.Ascending) {k : Nat} {i : Instruction}
    (hk : p.instructions[k]? = some i) : destination? (.ofProgram p) i.line.toFloat = some k := by
  rw [destination?, lineOf?_toFloat]
  exact h.getElem?_ofProgram hk

variable {δ : Type}

/-! ## Machines that hold a program -/

/-- A machine with a program and its index. -/
structure Holds (p : Program) (m : Machine δ) : Prop where
  program : m.program = some p
  lineIndex : m.lineIndex = .ofProgram p

theorem Attempted.lineIndex [Peripheral δ] {m : Machine δ} {p : Program} {now : Nat} {i : Instruction}
    {a : Attempt δ} (h : Attempted m p now i a) : a.machine.lineIndex = m.lineIndex := by
  cases h <;> rfl

section Reached

variable [Peripheral δ]

/-- The machines that a loaded program can get to: its instructions are attempted one after the other, and in
between the host may do what it can do to a machine. -/
inductive Reached (p : Program) : Machine δ → Prop
  | load (m : Machine δ) (options : LoadOptions) : Reached p (m.load p options).1
  | attempt {m : Machine δ} (h : Reached p m) {i : Instruction} (hi : p.instructions[m.position]? = some i)
      (now : Nat) : Reached p (m.attempt p now i).machine
  | settle {m : Machine δ} (h : Reached p m) (o : Outcome) : Reached p (m.settle o)
  | awakened {m : Machine δ} (h : Reached p m) : Reached p m.awakened
  | push {m m' : Machine δ} (h : Reached p m) {value : Float} (hm : m.push value = some m') : Reached p m'
  | pop {m m' : Machine δ} (h : Reached p m) {value : Float} (hm : m.pop = some (value, m')) : Reached p m'
  | plug {m m' : Machine δ} (h : Reached p m) {slot place : Nat} (hm : m.plug slot place = some m') :
    Reached p m'
  | unplug {m m' : Machine δ} (h : Reached p m) {slot : Nat} (hm : m.unplug slot = some m') : Reached p m'
  | observe {m : Machine δ} (h : Reached p m) (observed : Bool) : Reached p { m with observed }
  | work {m : Machine δ} (h : Reached p m) (bench : Bench δ) : Reached p { m with bench }

/-- A program stays loaded. -/
theorem Reached.holds {p : Program} {m : Machine δ} (h : Reached p m) : Holds p m := by
  induction h with
  | load m options =>
    unfold Machine.load
    simp only
    split <;> exact ⟨rfl, rfl⟩
  | @attempt m h i hi now ih =>
    have ha := attempt_attempted m p now i
    exact ⟨ha.program.trans ih.program, ha.lineIndex.trans ih.lineIndex⟩
  | settle _ _ ih => exact ⟨ih.program, ih.lineIndex⟩
  | awakened _ ih => exact ⟨ih.program, ih.lineIndex⟩
  | push _ hm ih =>
    unfold Machine.push at hm
    split at hm
    · cases hm
      exact ⟨ih.program, ih.lineIndex⟩
    · cases hm
  | pop _ hm ih =>
    obtain ⟨x, -, hx⟩ := Option.map_eq_some_iff.mp hm
    cases hx
    exact ⟨ih.program, ih.lineIndex⟩
  | plug _ hm ih =>
    unfold Machine.plug at hm
    split at hm
    · cases hm
      exact ⟨ih.program, ih.lineIndex⟩
    · cases hm
  | unplug _ hm ih =>
    unfold Machine.unplug at hm
    split at hm
    · cases hm
      exact ⟨ih.program, ih.lineIndex⟩
    · cases hm
  | observe _ _ ih => exact ⟨ih.program, ih.lineIndex⟩
  | work _ _ ih => exact ⟨ih.program, ih.lineIndex⟩

/-- The loop gets only to machines that attempts get to. -/
theorem Reached.loop {p : Program} {m : Machine δ} (h : Reached p m) (now budget : Nat) (ns : List Notice)
    (ss : List Snapshot) : Reached p (loop p now budget m ns ss).machine := by
  induction budget generalizing m ns ss with
  | zero => exact h.settle _
  | succ budget ih =>
    unfold Machine.loop
    cases hi : p.instructions[m.position]? with
    | none => exact h.settle _
    | some i =>
      simp only
      cases (m.attempt p now i).ending with
      | some ending => exact h.attempt hi now
      | none => exact ih (h.attempt hi now) _ _

/-- So does a run. -/
theorem Reached.runDuring {p : Program} {m : Machine δ} (h : Reached p m) (start later budget : Nat) :
    Reached p (m.runDuring start later budget).machine := by
  obtain ⟨r, hr, hidle⟩ | ⟨hf, he, ha⟩ := idle_or_awake h.holds.program start later
  · rw [hidle budget]
    exact hr.keeps h h.settle
  · rw [runDuring_awake h.holds.program hf he ha]
    exact h.awakened.loop _ _ _ _

end Reached

/-! ## Jumps and returns -/

section Jumps

variable [Peripheral δ] {p : Program} {i next target : Instruction} {j : Nat} {m : Machine δ}

/-- A jump to the line of an instruction leads to that instruction. -/
theorem position_line (h : p.Ascending) (hm : Holds p m) (hj : p.instructions[j]? = some target)
    (hd : i.destination = some (.literal (.ofFloat target.line.toFloat))) (hc : m.Compares i) (now : Nat) :
    m.Taken p now i ∧ (m.attempt p now i).machine.position = j := by
  have hn : destination? m.lineIndex target.line.toFloat = some j := by
    rw [hm.lineIndex]
    exact destination?_line h hj
  refine taken_of_compares hc (fun w _ => ?_) hn p now
  rw [hd]
  show EStateM.Result.ok (Number.Stored.ofFloat target.line.toFloat).toFloat _ = _
  rw [Number.toFloat_ofFloat]

theorem compares_of_isReturn (m : Machine δ) (h : i.IsReturn) : m.Compares i := by
  obtain ⟨ho, -, hl, hr⟩ := h
  refine ⟨0, m, 0, m, ?_, ?_, ?_⟩
  · rw [hl]
    rfl
  · rw [hr]
    rfl
  · rw [ho]
    rfl

/-- `j ra` leads to the instruction whose line is the return address. -/
theorem position_return (h : p.Ascending) (hm : Holds p m) (hj : p.instructions[j]? = some target)
    (hreturn : m.returnAddress = target.line) (hi : i.IsReturn) (now : Nat) :
    m.Taken p now i ∧ (m.attempt p now i).machine.position = j := by
  have hn : destination? m.lineIndex m.returnAddress.toFloat = some j := by
    rw [hm.lineIndex, hreturn]
    exact destination?_line h hj
  refine taken_of_compares (compares_of_isReturn m hi) (fun w hw => ?_) hn p now
  rw [hi.2.1]
  show EStateM.Result.ok (m.withWorkspace w).returnAddress.toFloat _ = _
  rw [hw]

/-- A jump that is taken and links leaves the line of the next instruction. -/
theorem returnAddress_eq (h : p.Ascending) {now : Nat} (hi : p.instructions[m.position]? = some i)
    (hnext : p.instructions[m.position + 1]? = some next) (hlinks : i.operation.links = true)
    (ht : m.Taken p now i) : (m.attempt p now i).machine.returnAddress = next.line := by
  obtain ⟨hline, hpos⟩ := h.returnLine_eq hi hnext
  rw [returnAddress_taken hlinks ht (by rw [hline]; exact hpos), hline]

end Jumps

/-- The jump at a position, if it is taken, leads to `next`, and nothing but what it compares keeps it from being
taken. -/
def JumpsTo (p : Program) (position next : Nat) : Prop :=
  ∀ (δ : Type) [Peripheral δ] (m : Machine δ) (i : Instruction) (now : Nat), Holds p m →
    m.position = position → p.instructions[position]? = some i → m.Compares i →
      m.Taken p now i ∧ (m.attempt p now i).machine.position = next

/-- After the jump at a position is taken, `j ra` leads to `next`, as long as the return address stays. -/
def ReturnsTo (p : Program) (position next : Nat) : Prop :=
  ∀ (δ : Type) [Peripheral δ] (m m' : Machine δ) (i i' : Instruction) (now now' : Nat), Holds p m →
    m.position = position → p.instructions[position]? = some i → m.Taken p now i → Holds p m' →
      m'.returnAddress = (m.attempt p now i).machine.returnAddress →
      p.instructions[m'.position]? = some i' → i'.IsReturn →
        m'.Taken p now' i' ∧ (m'.attempt p now' i').machine.position = next

theorem jumpsTo_line {p : Program} (h : p.Ascending) {k j : Nat} {i target : Instruction}
    (hi : p.instructions[k]? = some i) (hj : p.instructions[j]? = some target)
    (hd : i.destination = some (.literal (.ofFloat target.line.toFloat))) : JumpsTo p k j := by
  intro δ _ m i' now hm _ hi' hc
  obtain rfl : i = i' := Option.some.inj (hi.symm.trans hi')
  exact position_line h hm hj hd hc now

theorem returnsTo_next {p : Program} (h : p.Ascending) {k : Nat} {i next : Instruction}
    (hi : p.instructions[k]? = some i) (hnext : p.instructions[k + 1]? = some next)
    (hlinks : i.operation.links = true) : ReturnsTo p k (k + 1) := by
  rintro δ _ m m' i₁ i' now now' - rfl hi₁ ht hm' hreturn - hback
  obtain rfl : i = i₁ := Option.some.inj (hi.symm.trans hi₁)
  exact position_return h hm' hnext (hreturn.trans (returnAddress_eq h hi hnext hlinks ht)) hback now'

end Machine

/-! ## Programs that are assembled -/

namespace Assembly

variable {a : Assembler} {source : String} {target : BuildTarget} {expanded : List Line} {p : Program}

theorem ascending_of_assemble (h : (a.assemble source target).result = .ok p)
    (hexpanded : (expand a.resolver a.limit source).result = .ok expanded)
    (hlines : expanded.length < UInt32.size - 4) : p.Ascending := by
  obtain ⟨expanded', written, hexpanded', -, -, hyields, rfl⟩ := assemble_eq_ok_iff.mp h
  cases hexpanded.symm.trans hexpanded'
  refine hyields.pairwise_line_programOf ?_
  rw [length_statedLines]
  omega

theorem endsInRet_of_assemble (h : (a.assemble source target).result = .ok p) : p.EndsInRet := by
  obtain ⟨expanded, written, -, -, -, -, rfl⟩ := assemble_eq_ok_iff.mp h
  exact back_programOf target (requirements (aliasedLines expanded)) written

/-- Behind a jump there is always an instruction, for a program ends in `ret`. -/
theorem next_of_assemble (h : (a.assemble source target).result = .ok p) {k : Nat} {i : Instruction}
    (hi : p.instructions[k]? = some i) (hj : i.operation.isJump = true) :
    ∃ next, p.instructions[k + 1]? = some next := by
  have hret : i.operation ≠ .ret := by
    intro hret
    rw [hret] at hj
    cases hj
  exact ⟨_, Array.getElem?_eq_getElem ((endsInRet_of_assemble h).succ_lt_size hi hret)⟩

end Assembly

namespace Machine

open Assembly

theorem isJump_of_links {op : Operation} (h : op.links = true) : op.isJump = true := by
  cases op <;> first | rfl | cases h

/-- Subroutines return. Wherever a program that was assembled has got to, a jump or branch that is taken and
links leaves the line of the instruction behind it, and whenever that is the return address, `j ra` goes on at
that instruction. All other jumps and branches keep the return address, and so does every instruction that does
not write to it. -/
theorem call_returns {a : Assembler} {source : String} {target : BuildTarget} {expanded : List Line}
    {p : Program} (h : (a.assemble source target).result = .ok p)
    (hexpanded : (expand a.resolver a.limit source).result = .ok expanded) {δ : Type} [Peripheral δ]
    {m : Machine δ} {i : Instruction} (hi : p.instructions[m.position]? = some i) (now : Nat) :
    (i.operation.links = true → m.Taken p now i →
      ∃ next, p.instructions[m.position + 1]? = some next ∧
        (expanded.length < UInt32.size - 4 →
          (m.attempt p now i).machine.returnAddress = next.line ∧
          ∀ (m' : Machine δ) (i' : Instruction) (now' : Nat), Reached p m' →
            m'.returnAddress = (m.attempt p now i).machine.returnAddress →
            p.instructions[m'.position]? = some i' → i'.IsReturn →
              m'.Taken p now' i' ∧ (m'.attempt p now' i').machine.position = m.position + 1)) ∧
    (i.operation.isJump = true → ¬ (i.operation.links = true ∧ m.Taken p now i) →
      (m.attempt p now i).machine.returnAddress = m.returnAddress) ∧
    ((m.attempt p now i).machine.returnAddress ≠ m.returnAddress →
      i.operation.links = true ∧ m.Taken p now i ∨
        i.operation.isJump = false ∧ i.destination = some .returnAddress) := by
  refine ⟨fun hlinks ht => ?_, fun hj hnot => ?_, fun hchanged => ?_⟩
  · obtain ⟨next, hnext⟩ := next_of_assemble h hi (isJump_of_links hlinks)
    refine ⟨next, hnext, fun hlines => ?_⟩
    have hascending := ascending_of_assemble h hexpanded hlines
    have hreturn := returnAddress_eq hascending hi hnext hlinks ht
    refine ⟨hreturn, fun m' i' now' hm' hsame _ hback => ?_⟩
    exact position_return hascending hm'.holds hnext (hsame.trans hreturn) hback now'
  · exact attempt_keeps (fun hother => absurd (hj.symm.trans hother) (by decide)) hnot
  · by_cases htaken : i.operation.links = true ∧ m.Taken p now i
    · exact .inl htaken
    by_cases hwrites : i.operation.isJump = false ∧ i.destination = some .returnAddress
    · exact .inr hwrites
    · exact absurd (attempt_keeps (fun hj hd => hwrites ⟨hj, hd⟩) htaken) hchanged

/-- A program that calls a subroutine which returns at once. -/
def calling : Program where
  target := .release
  instructions :=
    #[{ operation := .jump true, destination := some (.literal (.ofFloat 5)), line := 1 },
      { operation := .ret, line := 2 },
      { operation := .jump false, destination := some .returnAddress, line := 5 },
      { operation := .ret, line := 8 }]

def callingMachine : Machine Device := ((new ⟨1, 1, 1, 1⟩ 7 {}).load calling {}).1

/-- The call leaves line 2, and the subroutine goes back there. -/
theorem call_returns_at_once :
    let call := calling.instructions[0]
    let back := calling.instructions[2]
    let called := (callingMachine.attempt calling 0 call).machine
    (({} : Assembler).assemble "jal sub\nret\n\nsub:\nj ra" .release).result = .ok calling ∧
      callingMachine.Taken calling 0 call ∧ called.returnAddress = 2 ∧
      calling.instructions[called.position]? = some back ∧ called.Taken calling 0 back ∧
      (called.attempt calling 0 back).machine.position = 1 := by
  intro call back called
  have h : (({} : Assembler).assemble "jal sub\nret\n\nsub:\nj ra" .release).result = .ok calling :=
    eq_ok_of_toOption (by decide +kernel)
  obtain ⟨expanded, -, hexpanded, -⟩ := assemble_eq_ok_iff.mp h
  have hlines : expanded.length < UInt32.size - 4 := by
    rw [(expand_none_iff.mp hexpanded).2, List.length_map]
    decide +kernel
  have hloaded : Reached calling callingMachine := .load _ _
  obtain ⟨htaken, hposition⟩ : callingMachine.Taken calling 0 call ∧ called.position = 2 := by
    have hj : calling.instructions[2]? = some back := rfl
    refine position_line (ascending_of_assemble h hexpanded hlines) hloaded.holds hj ?_ ?_ 0
    · decide +kernel
    · exact ⟨0, _, 0, _, rfl, rfl, rfl⟩
  obtain ⟨next, hnext, hreturns⟩ := (call_returns h hexpanded (m := callingMachine) rfl 0).1 rfl htaken
  obtain ⟨hreturn, hback⟩ := hreturns hlines
  have hi' : calling.instructions[called.position]? = some back := by
    rw [hposition]
    rfl
  cases hnext
  refine ⟨h, htaken, hreturn, hi', hback called back 0 (hloaded.attempt rfl 0) rfl hi' ⟨rfl, rfl, rfl, rfl⟩⟩

end Machine

end VirtualProcessor
