import VirtualProcessor.Proofs.Assembly.Passes
import VirtualProcessor.Proofs.Machine.Trace

/-!
# Assembled instructions have the operands they need

`Operation.places` lists where an operation looks for its operands. It does not look anywhere else
(`perform_congr`, `mem_places_of_uses`). A statement has an operand that its form admits at every place of its form
(`Form.fill_spec`), and what the table of forms says of operations is decided: the places of an operation are among
those of its forms, targets are no device registers, and results do not go to literals. So every instruction of an
assembled program is `Disciplined`, and a disciplined instruction never fails because of what its destination is
(`Disciplined.not_destinationRefused`): what is left of bad arguments is bad values.
-/

namespace VirtualProcessor

open Assembly (Place)

/-! ## Where operations look for operands -/

/-- The places of the operands that an operation uses. -/
def Operation.places : Operation → List Place
  | nop => []
  | yield => []
  | ret => []
  | die => []
  | breakpoint => []
  | sleep => [.left]
  | jump _ => [.destination]
  | branch .. => [.destination, .left, .right]
  | push => [.left]
  | pop => [.destination]
  | peek => [.destination]
  | increment => [.destination]
  | decrement => [.destination]
  | unary _ => [.destination, .left]
  | assert => [.destination, .left]
  | binary _ => [.destination, .left, .right]
  | randomReal => [.destination, .left, .right]
  | randomInteger => [.destination, .left, .right]
  | transfer => [.destination, .left]
  | allocate => [.destination, .left]
  | free => [.left]
  | store => [.left, .right]
  | load => [.destination, .left]

def Instruction.operandAt (i : Instruction) : Place → Option Operand
  | .destination => i.destination
  | .left => i.left
  | .right => i.right

namespace Machine

variable {δ : Type} [Peripheral δ]

/-- The work of an operation hangs on an operand: there is work that another destination, or another value of the
source, makes different. -/
def Uses (δ : Type) [Peripheral δ] (op : Operation) : Place → Prop
  | .destination => ∃ p position now i destination left right, ∃ m : Machine δ, i.operation = op ∧
      (perform p position now { i with destination } left right).run m ≠ (perform p position now i left right).run m
  | .left => ∃ p position now i left left' right, ∃ m : Machine δ, i.operation = op ∧
      (perform p position now i left' right).run m ≠ (perform p position now i left right).run m
  | .right => ∃ p position now i left right right', ∃ m : Machine δ, i.operation = op ∧
      (perform p position now i left right').run m ≠ (perform p position now i left right).run m

/-- The work of an instruction is the same with other operands at places where its operation does not look. -/
theorem perform_congr (p : Program) (position now : Nat) (i : Instruction) {destination : Option Operand}
    {left left' right right' : Float} (hd : .destination ∈ i.operation.places → destination = i.destination)
    (hl : .left ∈ i.operation.places → left' = left) (hr : .right ∈ i.operation.places → right' = right) :
    (perform p position now { i with destination } left' right' : Action δ Flow) =
      perform p position now i left right := by
  obtain ⟨operation, old, source, source', line, rawText, text⟩ := i
  simp only at hd hl hr
  cases operation <;>
    simp_all [Operation.places, perform, compute, jumpTo, check]

theorem mem_places_of_uses {op : Operation} {place : Place} (h : Uses δ op place) : place ∈ op.places := by
  refine Decidable.by_contra fun hplace => ?_
  cases place with
  | destination =>
    obtain ⟨p, position, now, i, destination, left, right, m, rfl, hne⟩ := h
    exact hne (by rw [perform_congr p position now i (fun h => absurd h hplace) (fun _ => rfl) fun _ => rfl])
  | left =>
    obtain ⟨p, position, now, i, left, left', right, m, rfl, hne⟩ := h
    exact hne (by rw [← perform_congr p position now i (fun _ => rfl) (fun h => absurd h hplace) fun _ => rfl])
  | right =>
    obtain ⟨p, position, now, i, left, right, right', m, rfl, hne⟩ := h
    exact hne (by rw [← perform_congr p position now i (fun _ => rfl) (fun _ => rfl) fun h => absurd h hplace])

/-! ## Failing for what the destination is -/

/-- An instruction comes to its destination, and fails there with bad arguments: it is to be read and cannot be, or
the result is computed and cannot be written. -/
inductive DestinationRefused (m : Machine δ) (p : Program) (i : Instruction) : Prop
  | read {left right : Float} {m₁ m' : Machine δ} (hsources : (sources i).run m = .ok (left, right) m₁)
      (hop : i.operation.readsDestination p.isRelease = true)
      (h : (readDestination i.destination).run m₁ = .error (.fault .badArguments) m')
  | write {left right value : Float} {m₁ m₂ m' : Machine δ} (hsources : (sources i).run m = .ok (left, right) m₁)
      (hcompute : (compute i left right).run m₁ = .ok value m₂)
      (h : (write value i.destination).run m₂ = .error (.fault .badArguments) m')

/-- Operations that have no result compute none. -/
theorem hasResult_of_compute {i : Instruction} {left right value : Float} {m m' : Machine δ}
    (h : (compute i left right).run m = .ok value m') : i.operation.hasResult = true := by
  unfold compute at h
  split at h
  case h_12 => cases h
  all_goals
    rename_i hop
    rw [hop]
    rfl

end Machine

/-! ## Discipline -/

/-- An instruction that has the operands its operation uses (only the places of `round` may be left out), whose target
is no device register, and whose result does not go to a literal. -/
structure Instruction.Disciplined (i : Instruction) : Prop where
  operands : ∀ place ∈ i.operation.places,
    (i.operandAt place).isSome = true ∨ i.operation = .binary .round ∧ place = .right
  target (h : i.operation.isJump = true) : ∃ op, i.destination = some op ∧ op.isDevice = false
  result (h : i.operation.hasResult = true) : ∃ op, i.destination = some op ∧ op.isLiteral = false

namespace Instruction.Disciplined

variable {δ : Type} [Peripheral δ] {i : Instruction}

/-- An operation that reads its destination uses it. -/
theorem mem_places_of_readsDestination {release : Bool} {op : Operation} (h : op.readsDestination release = true) :
    .destination ∈ op.places ∧ op ≠ .binary .round := by
  cases op <;> simp_all [Operation.readsDestination, Operation.places]

theorem exists_destination (h : i.Disciplined) {release : Bool}
    (hop : i.operation.readsDestination release = true) : ∃ op, i.destination = some op := by
  obtain ⟨hplace, hround⟩ := mem_places_of_readsDestination hop
  obtain hsome | ⟨hop, -⟩ := h.operands .destination hplace
  · exact Option.isSome_iff_exists.mp hsome
  · exact absurd hop hround

/-- The destination never is in the way for what it is. -/
theorem not_destinationRefused (h : i.Disciplined) (m : Machine δ) (p : Program) : ¬ m.DestinationRefused p i := by
  rintro (⟨-, hop, hread⟩ | ⟨-, hcompute, hwrite⟩)
  · obtain ⟨op, hd⟩ := h.exists_destination hop
    rw [hd] at hread
    exact absurd (Machine.read_raises op _ _ _ hread) (by decide)
  · have hresult := Machine.hasResult_of_compute hcompute
    obtain ⟨op, hd, hliteral⟩ := h.result hresult
    obtain ht | ⟨-, hall⟩ := Machine.write_raises _ _ _ _ _ hwrite
    · exact absurd ht (by decide)
    · cases hliteral.symm.trans (hall op hd)

/-- What an instruction fails for with bad arguments are the values of its sources. -/
theorem refuses (h : i.Disciplined) {m m' : Machine δ} {p : Program} {position now : Nat}
    (hrun : (Machine.execute p position now i).run m = .error (.fault .badArguments) m') :
    ∃ left right m₁, (Machine.sources i).run m = .ok (left, right) m₁ ∧ i.operation.Refuses left right := by
  obtain ht | ⟨left, right, m₁, hsources, -, hreason⟩ := Machine.execute_error_cases hrun
  · exact absurd ht (by decide)
  cases hreason with
  | access ht => exact absurd ht (by decide)
  | missing hop hnone =>
    obtain ⟨op, hd⟩ := h.exists_destination hop
    cases hd.symm.trans hnone
  | unwritable hop hall =>
    obtain ⟨op, hd, hliteral⟩ := h.result hop
    cases hliteral.symm.trans (hall op hd)
  | refused hrefuses => exact ⟨left, right, m₁, hsources, hrefuses⟩
  | own hcause =>
    have hnone : .badArguments ∉ i.operation.causes := by
      cases i.operation <;> simp [Operation.causes]
    exact absurd hcause hnone

end Instruction.Disciplined

namespace Assembly

/-! ## What the table says -/

def Statement.operandAt (s : Statement) : Place → Option Operand
  | .destination => s.destination
  | .left => s.left
  | .right => s.right

theorem Statement.operandAt_put (s : Statement) (op : Operand) (place place' : Place) :
    (s.put op place).operandAt place' = if place = place' then some op else s.operandAt place' := by
  cases place <;> cases place' <;> rfl

/-- At every place of a form there is an operand that the form admits, and the other places are left alone. -/
theorem Form.fill_spec {s s' : Statement} {slots : List (Place × Operand.Kind)} {words : List String}
    (hlength : slots.length = words.length) (h : fill s slots words = some s') :
    ∀ place, (∃ kind op, (place, kind) ∈ slots ∧ s'.operandAt place = some op ∧ kind.admits op = true) ∨
      place ∉ slots.map Prod.fst ∧ s'.operandAt place = s.operandAt place := by
  induction slots generalizing s words with
  | nil =>
    obtain rfl : words = [] := List.eq_nil_of_length_eq_zero hlength.symm
    obtain rfl : s = s' := Option.some.inj h
    exact fun place => .inr ⟨List.not_mem_nil, rfl⟩
  | cons slot slots ih =>
    obtain ⟨place, kind⟩ := slot
    obtain _ | ⟨w, words⟩ := words
    · cases hlength
    rw [fill] at h
    cases hop : Operand.ofWordAs? kind w with
    | none =>
      rw [hop] at h
      cases h
    | some op =>
      rw [hop] at h
      intro place'
      obtain ⟨kind', op', hmem, hfound⟩ | ⟨hnot, hsame⟩ := ih (Nat.succ.inj hlength) h place'
      · exact .inl ⟨kind', op', List.mem_cons_of_mem _ hmem, hfound⟩
      rw [Statement.operandAt_put] at hsame
      by_cases hplace : place = place'
      · subst hplace
        rw [if_pos rfl] at hsame
        exact .inl ⟨kind, op, List.mem_cons_self, hsame, (Option.filter_eq_some_iff.mp hop).2⟩
      · rw [if_neg hplace] at hsame
        refine .inr ⟨?_, hsame⟩
        rw [List.map_cons, List.mem_cons, not_or]
        exact ⟨fun e => hplace e.symm, hnot⟩

/-- The places of an operation are among those of its forms. -/
theorem standardForms_places : ∀ f ∈ standardForms, ∀ place ∈ f.operation.places,
    place ∈ f.slots.map Prod.fst ∨ f.operation = .binary .round ∧ place = .right := by
  decide +kernel

/-- Targets are no device registers. -/
theorem standardForms_target : ∀ f ∈ standardForms, f.operation.isJump = true →
    ∀ slot ∈ f.slots, slot.1 = .destination → slot.2 = .plain := by
  decide +kernel

/-- Results do not go to literals. -/
theorem standardForms_result : ∀ f ∈ standardForms, f.operation.hasResult = true →
    ∀ slot ∈ f.slots, slot.1 = .destination → slot.2 ∈ [.writable, .onboard, .device] := by
  decide +kernel

theorem isLiteral_of_admits {kind : Operand.Kind} (hkind : kind ∈ [.writable, .onboard, .device]) {op : Operand}
    (h : kind.admits op = true) : op.isLiteral = false := by
  cases kind <;> cases op <;> simp_all [Operand.Kind.admits, Operand.isLiteral, Operand.isDevice]

/-- Jumps and operations with a result use their destination. -/
theorem destination_mem_places {op : Operation} (h : op.isJump = true ∨ op.hasResult = true) :
    .destination ∈ op.places := by
  cases op <;> simp_all [Operation.isJump, Operation.isBranch, Operation.hasResult, Operation.places]

section Statements

variable {f : Form} {words : List String} {s : Statement}

/-- A statement has an operand at every place that its operation uses, which its form admits. -/
theorem exists_operandAt (hf : f ∈ standardForms) (hlength : f.slots.length = words.length)
    (hs : f.statement? words = some s) {place : Place} (hplace : place ∈ f.operation.places)
    (hround : ¬ (f.operation = .binary .round ∧ place = .right)) :
    ∃ kind op, (place, kind) ∈ f.slots ∧ s.operandAt place = some op ∧ kind.admits op = true := by
  have hslot : place ∈ f.slots.map Prod.fst := (standardForms_places f hf place hplace).resolve_right hround
  obtain hfound | ⟨hnot, -⟩ := Form.fill_spec hlength hs place
  · exact hfound
  · exact absurd hslot hnot

theorem disciplined_of_statement? (hf : f ∈ standardForms) (hlength : f.slots.length = words.length)
    (hs : f.statement? words = some s) (number : Nat) (l : Line) : (s.onLine number l).Disciplined := by
  have hoperation : s.operation = f.operation := Form.operation_of_fill hs
  have hdestination (h : f.operation.isJump = true ∨ f.operation.hasResult = true) :
      ∃ kind op, (.destination, kind) ∈ f.slots ∧ s.destination = some op ∧ kind.admits op = true :=
    exists_operandAt hf hlength hs (destination_mem_places h) fun hround => by cases hround.2
  constructor
  case operands =>
    intro place hplace
    have hplace : place ∈ f.operation.places := hoperation ▸ hplace
    by_cases hround : f.operation = .binary .round ∧ place = .right
    · exact .inr ⟨hoperation.trans hround.1, hround.2⟩
    · obtain ⟨kind, op, -, hop, -⟩ := exists_operandAt hf hlength hs hplace hround
      have hat : (s.onLine number l).operandAt place = s.operandAt place := by cases place <;> rfl
      exact .inl (by rw [hat, hop]; rfl)
  case target =>
    intro hjump
    have hjump : f.operation.isJump = true := hoperation ▸ hjump
    obtain ⟨kind, op, hslot, hop, hadmits⟩ := hdestination (.inl hjump)
    obtain rfl : kind = .plain := standardForms_target f hf hjump _ hslot rfl
    exact ⟨op, hop, by simpa [Operand.Kind.admits] using hadmits⟩
  case result =>
    intro hresult
    have hresult : f.operation.hasResult = true := hoperation ▸ hresult
    obtain ⟨kind, op, hslot, hop, hadmits⟩ := hdestination (.inr hresult)
    exact ⟨op, hop, isLiteral_of_admits (standardForms_result f hf hresult _ hslot rfl) hadmits⟩

end Statements

/-! ## Assembled programs -/

theorem disciplined_instructionFor (target : BuildTarget) {i : Instruction} (h : i.Disciplined) :
    (instructionFor target i).Disciplined := by
  cases target with
  | debug => exact h
  | release => exact ⟨fun place hplace => by cases place <;> exact h.operands _ hplace, h.target, h.result⟩

theorem disciplined_addedReturn (line : UInt32) : (addedReturn line).Disciplined where
  operands _ h := absurd h List.not_mem_nil
  target h := by cases h
  result h := by cases h

theorem Completes.disciplined {written complete : List Instruction} (h : Completes written complete)
    (hw : ∀ i ∈ written, i.Disciplined) : ∀ i ∈ complete, i.Disciplined :=
  h.forall_mem hw disciplined_addedReturn

theorem Yields.disciplined {labels : LabelTable} {placed : Nat} {lines : List Line} {written : List Instruction}
    (h : Yields Family.standard labels placed lines written) : ∀ i ∈ written, i.Disciplined := by
  intro i hi
  obtain ⟨j, hj⟩ := List.mem_iff_getElem?.mp hi
  obtain ⟨k, l, -, -, -, hread⟩ := h.line_at hj
  obtain ⟨s, hs, rfl⟩ := readLine_eq_ok_iff.mp hread
  obtain ⟨word, words, f, -, hfind, hstatement⟩ := statementOf?_standard_iff.mp hs
  obtain ⟨hf, -, hlength⟩ := matches_of_find? hfind
  exact disciplined_of_statement? hf hlength hstatement _ _

/-- A program that the instruction set assembles has the operands it needs: every instruction has all that its
operation uses, where only `round` may lack its right operand; targets of jumps and branches are there and are no
device registers; and results go to a destination that is there and no literal. Hence whatever machine the program
is in, and whatever state that is in, at no attempt at an instruction the destination is refused for what it is. If
an attempt fails with bad arguments, then because of the values that were read. -/
theorem assemble_disciplined {δ : Type} [Peripheral δ] {a : Assembler} (ha : a.families = Family.standard)
    {source : String} {target : BuildTarget} {p : Program} (h : (a.assemble source target).result = .ok p) :
    (∀ i ∈ p.instructions, i.Disciplined ∧
      ∀ place, Machine.Uses δ i.operation place → place ∈ i.operation.places) ∧
    ∀ (m : Machine δ) (c : Machine.Call), m.program = some p → ∀ step ∈ m.stepsIn c,
      ¬ step.machine.DestinationRefused p step.instruction ∧
      ((step.machine.attempt p step.now step.instruction).ending =
          some (.fault (.failed .badArguments (Machine.locationOf step.instruction))) →
        ∃ left right m₁, (Machine.sources step.instruction).run step.machine = .ok (left, right) m₁ ∧
          step.instruction.operation.Refuses left right) := by
  obtain ⟨expanded, written, -, -, -, hyields, rfl⟩ := assemble_eq_ok_iff.mp h
  rw [ha] at hyields
  have hall : ∀ i ∈ (programOf target (requirements (aliasedLines expanded)) written).instructions,
      i.Disciplined := by
    intro i hi
    rw [← Array.mem_toList_iff, instructions_programOf] at hi
    obtain ⟨i, hwritten, rfl⟩ := List.mem_map.mp hi
    have hcompletes := completes_missingReturn written
    exact disciplined_instructionFor target (hcompletes.disciplined hyields.disciplined i hwritten)
  refine ⟨fun i hi => ⟨hall i hi, fun _ => Machine.mem_places_of_uses⟩, fun m c hp step hstep => ?_⟩
  have hfetches := Machine.fetches_of_stepsIn hp c step hstep
  have hdisciplined := hall _ (Array.mem_of_getElem? hfetches.instruction)
  refine ⟨hdisciplined.not_destinationRefused _ _, fun hending => ?_⟩
  obtain ⟨m', hrun⟩ := (Machine.attempt_attempted _ _ _ _).run_of_fault (by decide) hending
  exact hdisciplined.refuses hrun

/-- There is nothing to say about the operands of an arc sine and of a rounding that names no places. On a machine of
one register the arc sine is taken of 2, and what is wrong with it is its value. -/
theorem assemble_disciplined_arcSine :
    let arcSine : Instruction :=
      { operation := .unary .arcSine, destination := some (.register 0), left := some (.literal (.ofFloat 2)),
        line := 1, rawText := "asin r0 2", text := "asin r0 2" }
    let rounding : Instruction :=
      { operation := .binary .round, destination := some (.register 0), left := some (.register 1), line := 2,
        rawText := "round r0 r1", text := "round r0 r1" }
    let p : Program := { target := .debug, instructions := #[arcSine, rounding, addedReturn 5] }
    let m : Machine Device := { Machine.new ⟨1, 0, 0, 0⟩ 7 {} with program := some p }
    (({ } : Assembler).assemble "asin r0 2\nround r0 r1" .debug).result = .ok p ∧
      (rounding.Disciplined ∧ rounding.right = none) ∧
      ∃ step ∈ m.stepsIn ⟨0, 0, 1⟩, step.instruction = arcSine ∧
        (step.machine.attempt p step.now arcSine).ending =
          some (.fault (.failed .badArguments (Machine.locationOf arcSine))) ∧
        ∃ left right m₁, (Machine.sources arcSine).run step.machine = .ok (left, right) m₁ ∧
          (Operation.unary .arcSine).Refuses left right := by
  intro arcSine rounding p m
  have hassembled : (({ } : Assembler).assemble "asin r0 2\nround r0 r1" .debug).result = .ok p :=
    eq_ok_of_toOption (by decide +kernel)
  obtain ⟨hall, hsteps⟩ := assemble_disciplined (δ := Device) rfl hassembled
  have hstep : ⟨m.awakened, 0, arcSine⟩ ∈ m.stepsIn ⟨0, 0, 1⟩ := List.mem_cons_self
  have hending : (m.awakened.attempt p 0 arcSine).ending =
      some (.fault (.failed .badArguments (Machine.locationOf arcSine))) := by decide +kernel
  refine ⟨hassembled, ⟨(hall rounding (by simp [p])).1, rfl⟩, _, hstep, rfl, hending, ?_⟩
  exact (hsteps m ⟨0, 0, 1⟩ rfl _ hstep).2 hending

end Assembly

end VirtualProcessor
