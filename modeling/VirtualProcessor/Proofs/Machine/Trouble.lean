import VirtualProcessor.Proofs.Arena.Blocks
import VirtualProcessor.Proofs.Machine.Action

/-!
# What an instruction can run into

`Raises P x` says that whatever keeps the action `x` from coming through is as `P` says. It is closed under
doing one thing after the other, so that it is shown for whole instructions part by part.

`Reason` lists all that can keep the work of an instruction from coming through, given the values of its sources: an
operand is out of reach, the destination is missing or cannot be written, the values are no good for the operation, or
the operation runs into a trouble of its own. The list is complete (`perform_raises`), and before the work begins only
an operand can be out of reach (`execute_error_cases`). What no instruction runs into is read off the list: the
watchdog is no business of its work (`execute_quiet`), and there is no operation that is not implemented
(`execute_implemented`). A machine breaks down in the search for a random integer only, and exactly when there is none
(`execute_emptyRange_iff`).
-/

namespace VirtualProcessor

/-! ## Operations -/

namespace Operation

/-- Whether an operation computes a result for its destination. -/
def hasResult : Operation → Bool
  | pop => true
  | peek => true
  | increment => true
  | decrement => true
  | unary _ => true
  | binary _ => true
  | randomReal => true
  | randomInteger => true
  | transfer => true
  | allocate => true
  | load => true
  | _ => false

/-- Whether an operation reads its destination. A program for release does not check its assertions. -/
def readsDestination (release : Bool) : Operation → Bool
  | jump _ => true
  | branch .. => true
  | increment => true
  | decrement => true
  | assert => !release
  | _ => false

/-- The values of the sources are no good for an operation. -/
def Refuses (op : Operation) (left right : Float) : Prop :=
  match op with
  | sleep => 0 < left ∧ Machine.pause? left = none
  | unary f => f.eval left = .error .badArguments
  | binary f => f.eval left right = .error .badArguments
  | randomReal => left > right
  | randomInteger => left > right
  | allocate => Number.wholePart? left = none ∨ Number.wholePart? left = some 0
  | _ => False

/-- The faults that an operation has of its own. -/
def causes : Operation → List Fault.Cause
  | die => [.died]
  | jump _ => [.invalidJump]
  | branch .. => [.invalidJump]
  | push => [.stackOverflow]
  | pop => [.stackOverflow]
  | peek => [.stackOverflow]
  | unary _ => [.notANumber]
  | assert => [.assertFailed]
  | binary _ => [.divisionByZero]
  | allocate => [.outOfMemory]
  | free => [.nullPointer, .memoryViolation, .doubleFree]
  | store => [.nullPointer, .memoryViolation, .unallocatedMemory]
  | load => [.nullPointer, .memoryViolation, .unallocatedMemory]
  | _ => []

end Operation

/-! ## Refused requests -/

namespace Arena

variable {a : Arena} {pointer : Float} {e : Refusal}

theorem free_eq_error (h : a.free pointer = .error e) : e ∈ [.null, .violation, .doubleFree] := by
  cases hx : a.address pointer with
  | error e' =>
    obtain rfl := Except.error.inj ((free_of_address_error hx).symm.trans h)
    rcases address_eq_error hx with rfl | rfl <;> decide
  | ok x =>
    rw [free_of_address hx] at h
    split at h
    · cases h; decide
    · split at h
      · cases h; decide
      · cases h

theorem allocated_eq_error (h : a.allocated pointer = .error e) : e ∈ [.null, .violation, .unallocated] := by
  unfold allocated at h
  cases hx : a.address pointer with
  | error e' =>
    rw [hx] at h
    cases h
    rcases address_eq_error hx with rfl | rfl <;> decide
  | ok x =>
    rw [hx] at h
    change (if tag a.tags x = 0 then .error .unallocated else .ok x : Except Refusal Nat) = .error e at h
    split at h
    · cases h; decide
    · cases h

theorem load_eq_error (h : a.load pointer = .error e) : e ∈ [.null, .violation, .unallocated] := by
  unfold load at h
  cases hx : a.allocated pointer with
  | error e' =>
    rw [hx] at h
    cases h
    exact allocated_eq_error hx
  | ok x =>
    rw [hx] at h
    cases h

theorem store_eq_error {value : Float} (h : a.store pointer value = .error e) :
    e ∈ [.null, .violation, .unallocated] := by
  unfold store at h
  cases hx : a.allocated pointer with
  | error e' =>
    rw [hx] at h
    cases h
    exact allocated_eq_error hx
  | ok x =>
    rw [hx] at h
    cases h

/-- A block is refused for its length, or because there is no room. -/
theorem allocate_eq_error {length : Float} (h : a.allocate length = .error e) :
    e = .badLength ∧ (Number.wholePart? length = none ∨ Number.wholePart? length = some 0) ∨ e = .outOfMemory := by
  unfold allocate at h
  split at h
  · rename_i hnone
    exact .inl ⟨(Except.error.inj h).symm, .inl hnone⟩
  · rename_i hzero
    exact .inl ⟨(Except.error.inj h).symm, .inr hzero⟩
  · split at h
    · exact .inr (Except.error.inj h).symm
    · split at h
      · exact .inr (Except.error.inj h).symm
      · cases h

end Arena

namespace Machine

variable {δ : Type} {α β : Type}

/-! ## Troubles of an action -/

/-- An action that fails only as `P` says. -/
def Raises (P : Trouble → Prop) (x : Action δ α) : Prop := ∀ m t m', x.run m = .error t m' → P t

namespace Raises

variable {P Q : Trouble → Prop}

theorem mono {x : Action δ α} (hx : Raises P x) (h : ∀ t, P t → Q t) : Raises Q x :=
  fun m t m' e => h t (hx m t m' e)

theorem pure (a : α) : Raises P (pure a : Action δ α) := by
  intro m t m' e
  cases e

theorem throw {t : Trouble} (h : P t) : Raises P (throw t : Action δ α) := by
  intro m t' m' e
  cases e
  exact h

theorem fail {cause : Fault.Cause} (h : P (.fault cause)) : Raises P (fail cause : Action δ α) := throw h

theorem attemptTo {r : Except Fault.Cause α} (h : ∀ cause, r = .error cause → P (.fault cause)) :
    Raises P (attemptTo r : Action δ α) := by
  cases r with
  | ok a => exact pure a
  | error cause => exact fail (h cause rfl)

theorem bind {x : Action δ α} {f : α → Action δ β} (hx : Raises P x) (hf : ∀ a, Raises P (f a)) :
    Raises P (x >>= f) := by
  intro m t m' e
  obtain h | ⟨a, m₁, -, h⟩ := run_bind_error e
  · exact hx m t m' h
  · exact hf a m₁ t m' h

theorem get_bind {f : Machine δ → Action δ α} (hf : ∀ m, Raises P (f m)) : Raises P (get >>= f) :=
  fun m t m' e => hf m m t m' e

theorem modify (f : Machine δ → Machine δ) : Raises P (modify f : Action δ PUnit) := by
  intro m t m' e
  cases e

theorem set (m : Machine δ) : Raises P (set m : Action δ PUnit) := by
  intro m t m' e
  cases e

theorem ite {c : Prop} [Decidable c] {x y : Action δ α} (hx : Raises P x) (hy : Raises P y) :
    Raises P (if c then x else y) := by
  split
  · exact hx
  · exact hy

end Raises

/-! ## Results that are refused -/

theorem eq_of_ite_error {c : Prop} [Decidable c] {e cause : Fault.Cause} {a : α}
    (h : (if c then .error e else .ok a : Except Fault.Cause α) = .error cause) : cause = e := by
  split at h
  · cases h
    rfl
  · cases h

theorem eq_of_ite_ok {c : Prop} [Decidable c] {e cause : Fault.Cause} {a : α}
    (h : (if c then .ok a else .error e : Except Fault.Cause α) = .error cause) : cause = e := by
  split at h
  · cases h
  · cases h
    rfl

theorem unary_eq_error {f : Unary} {x : Float} {cause : Fault.Cause} (h : f.eval x = .error cause) :
    cause = .badArguments ∨ cause = .notANumber := by
  cases f with
  | squareRoot => exact .inr (eq_of_ite_error h)
  | arcSine => exact .inl (eq_of_ite_ok h)
  | arcCosine => exact .inl (eq_of_ite_ok h)
  | _ => cases h

theorem binary_eq_error {f : Binary} {x y : Float} {cause : Fault.Cause} (h : f.eval x y = .error cause) :
    cause = .badArguments ∨ cause = .divisionByZero := by
  cases f with
  | round =>
    simp only [Binary.eval, roundPlaces] at h
    split at h
    · exact .inl (eq_of_ite_ok h)
    · exact .inl (Except.error.inj h).symm
  | divide => exact .inr (eq_of_ite_error h)
  | modulo => exact .inr (eq_of_ite_error h)
  | _ => cases h

/-- A request that is refused makes the fault that belongs to the refusal. -/
theorem exists_refusal {r : Except Arena.Refusal α} {cause : Fault.Cause} (h : r.mapError .ofRefusal = .error cause) :
    ∃ e, r = .error e ∧ cause = .ofRefusal e := by
  cases r with
  | ok a => cases h
  | error e => exact ⟨e, rfl, (Except.error.inj h).symm⟩

/-! ## Operands out of reach -/

/-- What reading or writing an operand can run into. -/
def accessTroubles : List Trouble :=
  [.fault .registerOutOfBounds, .fault .deviceOutOfBounds, .fault .deviceUnplugged, .fault .deviceFailed]

theorem placeOf_raises (slot : UInt16) : Raises (· ∈ accessTroubles) (placeOf slot : Action δ Nat) := by
  refine Raises.get_bind fun m => ?_
  split
  · exact Raises.fail (by decide)
  · exact Raises.fail (by decide)
  · exact Raises.pure _

section Work

variable [Peripheral δ]

theorem benchRead_error {b : Bench δ} {place : Nat} {index : UInt16} {cause : Fault.Cause}
    (h : (b.read place index).2 = .error cause) : Trouble.fault cause ∈ accessTroubles := by
  unfold Bench.read at h
  split at h
  · cases h; decide
  split at h
  · cases h; decide
  · simp only at h
    split at h
    · cases h
    · cases h; decide

theorem benchWrite_error {b : Bench δ} {place : Nat} {index : UInt16} {value : Float} {cause : Fault.Cause}
    (h : (b.write place index value).2 = .error cause) : Trouble.fault cause ∈ accessTroubles := by
  unfold Bench.write at h
  split at h
  · cases h; decide
  split at h
  · cases h; decide
  · rw [eq_of_ite_ok h]; decide

theorem read_raises (op : Operand) : Raises (· ∈ accessTroubles) (read op : Action δ Float) := by
  cases op with
  | literal value => exact Raises.pure _
  | hexLiteral value => exact Raises.pure _
  | register index =>
    refine Raises.get_bind fun m => ?_
    split
    · exact Raises.pure _
    · exact Raises.fail (by decide)
  | stackPointer => exact Raises.get_bind fun m => Raises.pure _
  | returnAddress => exact Raises.get_bind fun m => Raises.pure _
  | device slot index =>
    refine Raises.bind (placeOf_raises slot) fun place => Raises.get_bind fun m => ?_
    exact Raises.bind (Raises.modify _) fun _ => Raises.attemptTo fun _ => benchRead_error

theorem readSource_raises (op : Option Operand) : Raises (· ∈ accessTroubles) (readSource op : Action δ Float) := by
  cases op with
  | some op => exact read_raises op
  | none => exact Raises.pure _

/-- A value cannot be written because the place is out of reach, or there is none to write to. -/
theorem write_raises (value : Float) (destination : Option Operand) :
    Raises (fun t => t ∈ accessTroubles ∨ t = .fault .badArguments ∧ ∀ op ∈ destination, op.isLiteral = true)
      (write value destination : Action δ Unit) := by
  cases destination with
  | none => exact Raises.fail (.inr ⟨rfl, by simp⟩)
  | some op =>
    cases op with
    | register index =>
      exact Raises.get_bind fun m => Raises.ite (Raises.modify _) (Raises.fail (.inl (by decide)))
    | stackPointer => exact Raises.modify _
    | returnAddress => exact Raises.modify _
    | device slot index =>
      refine Raises.bind ((placeOf_raises slot).mono fun _ => .inl) fun place => Raises.get_bind fun m => ?_
      exact Raises.bind (Raises.modify _) fun _ => Raises.attemptTo fun _ h => .inl (benchWrite_error h)
    | literal value => exact Raises.fail (.inr ⟨rfl, by simp [Operand.isLiteral]⟩)
    | hexLiteral value => exact Raises.fail (.inr ⟨rfl, by simp [Operand.isLiteral]⟩)

/-! ## The work of an instruction -/

/-- Why the work of an instruction fails, given the values of its sources. -/
inductive Reason (p : Program) (i : Instruction) (left right : Float) : Trouble → Prop
  /-- An operand is out of reach. -/
  | access {t : Trouble} (h : t ∈ accessTroubles) : Reason p i left right t
  /-- The destination is to be read, and there is none. -/
  | missing (hop : i.operation.readsDestination p.isRelease = true) (h : i.destination = none) :
    Reason p i left right (.fault .badArguments)
  /-- The destination is to be written, and there is none, or it is a literal. -/
  | unwritable (hop : i.operation.hasResult = true) (h : ∀ op ∈ i.destination, op.isLiteral = true) :
    Reason p i left right (.fault .badArguments)
  /-- The values are no good. -/
  | refused (h : i.operation.Refuses left right) : Reason p i left right (.fault .badArguments)
  | own {cause : Fault.Cause} (h : cause ∈ i.operation.causes) : Reason p i left right (.fault cause)
  /-- The bounds leave no integer. -/
  | emptyRange (hop : i.operation = .randomInteger) (hle : ¬ left > right)
      (h : (Number.toSignedWide right).toInt < (Number.toSignedWide left).toInt) : Reason p i left right .emptyRange

section Parts

variable {p : Program} {i : Instruction} {left right : Float}

omit [Peripheral δ] in
theorem Reason.own_of {op : Operation} (ho : i.operation = op) {cause : Fault.Cause} (h : cause ∈ op.causes) :
    Reason p i left right (.fault cause) := .own (ho ▸ h)

omit [Peripheral δ] in
theorem Reason.refused_of {op : Operation} (ho : i.operation = op) (h : op.Refuses left right) :
    Reason p i left right (.fault .badArguments) := .refused (ho ▸ h)

theorem readDestination_raises (hop : i.operation.readsDestination p.isRelease = true) :
    Raises (Reason p i left right) (readDestination i.destination : Action δ Float) := by
  cases hd : i.destination with
  | some op => exact (read_raises op).mono fun _ => .access
  | none => exact Raises.fail (.missing hop hd)

theorem jumpTo_raises (hop : i.operation.readsDestination p.isRelease = true)
    (hcause : .invalidJump ∈ i.operation.causes) (position : Nat) (links taken : Bool) :
    Raises (Reason p i left right) (jumpTo p position i links taken : Action δ Flow) := by
  refine Raises.bind (readDestination_raises hop) fun target => Raises.get_bind fun m => ?_
  split
  · exact Raises.fail (.own hcause)
  · refine Raises.ite (Raises.ite ?_ (Raises.pure _)) (Raises.pure _)
    exact Raises.bind (Raises.modify _) fun _ => Raises.pure _

omit [Peripheral δ] in
theorem popValue_raises : Raises (· = .fault .stackOverflow) (popValue : Action δ Float) := by
  refine Raises.get_bind fun m => ?_
  split
  · exact Raises.bind (Raises.set _) fun _ => Raises.pure _
  · exact Raises.fail rfl

omit [Peripheral δ] in
theorem peekValue_raises : Raises (· = .fault .stackOverflow) (peekValue : Action δ Float) := by
  refine Raises.get_bind fun m => ?_
  split
  · exact Raises.pure _
  · exact Raises.fail rfl

omit [Peripheral δ] in
theorem pushValue_raises (value : Float) : Raises (· = .fault .stackOverflow) (pushValue value : Action δ Unit) := by
  refine Raises.get_bind fun m => ?_
  split
  · exact Raises.set _
  · exact Raises.fail rfl

omit [Peripheral δ] in
theorem drawReal_raises (ho : i.operation = .randomReal) :
    Raises (Reason p i left right) (drawReal left right : Action δ Float) := by
  unfold drawReal
  split
  · exact Raises.fail (.refused_of ho ‹_›)
  · exact Raises.get_bind fun m => Raises.bind (Raises.modify _) fun _ => Raises.pure _

omit [Peripheral δ] in
theorem drawInteger_raises (ho : i.operation = .randomInteger) :
    Raises (Reason p i left right) (drawInteger left right : Action δ Float) := by
  unfold drawInteger
  split
  · exact Raises.fail (.refused_of ho ‹_›)
  · split
    · exact Raises.throw (.emptyRange ho ‹_› ‹_›)
    · exact Raises.get_bind fun m => Raises.bind (Raises.modify _) fun _ => Raises.pure _

omit [Peripheral δ] in
theorem allocateBlock_raises (ho : i.operation = .allocate) :
    Raises (Reason p i left right) (allocateBlock left : Action δ Float) := by
  refine Raises.get_bind fun m => ?_
  split
  · exact Raises.bind (Raises.modify _) fun _ => Raises.pure _
  · rename_i e hrefused
    obtain ⟨rfl, hlength⟩ | rfl := Arena.allocate_eq_error hrefused
    · exact Raises.fail (.refused_of ho hlength)
    · exact Raises.fail (.own_of ho (by decide))

omit [Peripheral δ] in
theorem sleepFor_raises (ho : i.operation = .sleep) (now : Nat) :
    Raises (Reason p i left right) (sleepFor now left : Action δ Unit) := by
  unfold sleepFor
  split
  · split
    · exact Raises.modify _
    · exact Raises.fail (.refused_of ho ⟨‹_›, ‹_›⟩)
  · exact Raises.pure _

theorem compute_raises (hop : i.operation.hasResult = true) :
    Raises (Reason p i left right) (compute i left right : Action δ Float) := by
  unfold compute
  cases ho : i.operation with
  | pop => exact popValue_raises.mono fun _ e => e ▸ .own_of ho (by decide)
  | peek => exact peekValue_raises.mono fun _ e => e ▸ .own_of ho (by decide)
  | increment => exact Raises.bind (readDestination_raises (by rw [ho]; rfl)) fun _ => Raises.pure _
  | decrement => exact Raises.bind (readDestination_raises (by rw [ho]; rfl)) fun _ => Raises.pure _
  | unary f =>
    refine Raises.attemptTo fun cause h => ?_
    obtain rfl | rfl := unary_eq_error h
    · exact .refused_of ho h
    · exact .own_of ho (List.mem_singleton_self _)
  | binary f =>
    refine Raises.attemptTo fun cause h => ?_
    obtain rfl | rfl := binary_eq_error h
    · exact .refused_of ho h
    · exact .own_of ho (List.mem_singleton_self _)
  | randomReal => exact drawReal_raises ho
  | randomInteger => exact drawInteger_raises ho
  | transfer => exact Raises.pure _
  | allocate => exact allocateBlock_raises ho
  | load =>
    refine Raises.get_bind fun m => Raises.attemptTo fun cause h => ?_
    obtain ⟨e, hload, rfl⟩ := exists_refusal h
    exact .own_of ho (List.mem_map_of_mem (Arena.load_eq_error hload))
  | _ =>
    rw [ho] at hop
    cases hop

theorem check_raises (ho : i.operation = .assert) (hp : p.isRelease = false) :
    Raises (Reason p i left right) (check i left : Action δ Unit) := by
  refine Raises.bind (readDestination_raises (by rw [ho, hp]; rfl)) fun _ => Raises.ite ?_ (Raises.pure _)
  exact Raises.fail (.own_of ho (by decide))

/-- The reasons are all that there are. -/
theorem perform_raises (p : Program) (position now : Nat) (i : Instruction) (left right : Float) :
    Raises (Reason p i left right) (perform p position now i left right : Action δ Flow) := by
  have result (h : i.operation.hasResult = true) :
      Raises (Reason p i left right) (do
        let value ← compute i left right
        write value i.destination
        pure .next : Action δ Flow) := by
    refine Raises.bind (compute_raises h) fun value => Raises.bind ?_ fun _ => Raises.pure _
    refine (write_raises value i.destination).mono fun t ht => ?_
    obtain ht | ⟨rfl, hall⟩ := ht
    · exact .access ht
    · exact .unwritable h hall
  unfold perform
  cases ho : i.operation with
  | nop => exact Raises.pure _
  | yield => exact Raises.pure _
  | ret => exact Raises.pure _
  | die => exact Raises.fail (.own_of ho (by decide))
  | breakpoint => exact Raises.pure _
  | sleep => exact Raises.bind (sleepFor_raises ho now) fun _ => Raises.pure _
  | jump links => exact jumpTo_raises (by rw [ho]; rfl) (by rw [ho]; exact List.mem_singleton_self _) position _ _
  | branch c links => exact jumpTo_raises (by rw [ho]; rfl) (by rw [ho]; exact List.mem_singleton_self _) position _ _
  | push =>
    refine Raises.bind ?_ fun _ => Raises.pure _
    exact (pushValue_raises left).mono fun _ e => e ▸ .own_of ho (by decide)
  | assert =>
    cases hp : p.isRelease with
    | true => exact Raises.pure _
    | false => exact Raises.bind (check_raises ho hp) fun _ => Raises.pure _
  | free =>
    refine Raises.get_bind fun m => Raises.bind (Raises.attemptTo fun cause h => ?_) fun memory => ?_
    · obtain ⟨e, hfree, rfl⟩ := exists_refusal h
      exact .own_of ho (List.mem_map_of_mem (Arena.free_eq_error hfree))
    · exact Raises.bind (Raises.modify _) fun _ => Raises.pure _
  | store =>
    refine Raises.get_bind fun m => Raises.bind (Raises.attemptTo fun cause h => ?_) fun memory => ?_
    · obtain ⟨e, hstore, rfl⟩ := exists_refusal h
      exact .own_of ho (List.mem_map_of_mem (Arena.store_eq_error hstore))
    · exact Raises.bind (Raises.modify _) fun _ => Raises.pure _
  | _ => exact result (by rw [ho]; rfl)

end Parts

/-! ## Whole instructions -/

/-- Reads the source operands of an instruction, left before right. -/
def sources (i : Instruction) : Action δ (Float × Float) := do
  let left ← readSource i.left
  let right ← readSource i.right
  pure (left, right)

theorem execute_eq (p : Program) (position now : Nat) (i : Instruction) :
    (execute p position now i : Action δ Flow) =
      sources i >>= fun values => perform p position now i values.1 values.2 := by
  simp only [execute, sources, bind_assoc, pure_bind]

/-- An instruction whose sources are read does its work on the machine that this leaves. -/
theorem execute_of_sources {i : Instruction} {m m₁ : Machine δ} {values : Float × Float}
    (h : (sources i).run m = .ok values m₁) (p : Program) (position now : Nat) :
    (execute p position now i).run m = (perform p position now i values.1 values.2).run m₁ := by
  rw [execute_eq, EStateM.run_bind, h]

theorem sources_raises (i : Instruction) : Raises (· ∈ accessTroubles) (sources i : Action δ (Float × Float)) :=
  Raises.bind (readSource_raises i.left) fun _ => Raises.bind (readSource_raises i.right) fun _ => Raises.pure _

section Whole

variable {p : Program} {position now : Nat} {i : Instruction}

/-- An instruction fails because a source is out of reach, or its work does. -/
theorem execute_error_cases {m m' : Machine δ} {t : Trouble} (h : (execute p position now i).run m = .error t m') :
    t ∈ accessTroubles ∨
      ∃ left right m₁, (sources i).run m = .ok (left, right) m₁ ∧
        (perform p position now i left right).run m₁ = .error t m' ∧ Reason p i left right t := by
  rw [execute_eq] at h
  obtain h | ⟨⟨left, right⟩, m₁, hread, hwork⟩ := run_bind_error h
  · exact .inl (sources_raises i m t m' h)
  · exact .inr ⟨left, right, m₁, hread, hwork, perform_raises p position now i left right m₁ t m' hwork⟩

/-- A cause that belongs to no operation and is not about operands is none of an instruction. -/
theorem execute_ne_fault {cause : Fault.Cause} (hreach : .fault cause ∉ accessTroubles) (hbad : cause ≠ .badArguments)
    (hown : ∀ op : Operation, cause ∉ op.causes) :
    Raises (· ≠ .fault cause) (execute p position now i : Action δ Flow) := by
  rintro m t m' h rfl
  obtain ht | ⟨left, right, m₁, -, -, hreason⟩ := execute_error_cases h
  · exact hreach ht
  · cases hreason with
    | access ht => exact hreach ht
    | missing => exact hbad rfl
    | unwritable => exact hbad rfl
    | refused => exact hbad rfl
    | own hcause => exact hown _ hcause

/-- The work of an instruction never raises the alarm of the watchdog. -/
theorem execute_quiet (p : Program) (position now : Nat) (i : Instruction) :
    Raises (· ≠ .fault .watchdogBark) (execute p position now i : Action δ Flow) :=
  execute_ne_fault (by decide) (by decide) fun op => by cases op <;> simp [Operation.causes]

/-- There is no operation that is not implemented. -/
theorem execute_implemented (p : Program) (position now : Nat) (i : Instruction) :
    Raises (· ≠ .fault .notImplemented) (execute p position now i : Action δ Flow) :=
  execute_ne_fault (by decide) (by decide) fun op => by cases op <;> simp [Operation.causes]

/-- The bounds that an instruction has read for a random integer leave none. -/
def LeavesNone (i : Instruction) (left right : Float) : Prop :=
  i.operation = .randomInteger ∧ ¬ left > right ∧
    (Number.toSignedWide right).toInt < (Number.toSignedWide left).toInt

/-- An instruction breaks down exactly when it has read bounds that leave no integer. -/
theorem execute_emptyRange_iff {m : Machine δ} :
    (∃ m', (execute p position now i).run m = .error .emptyRange m') ↔
      ∃ left right m₁, (sources i).run m = .ok (left, right) m₁ ∧ LeavesNone i left right := by
  constructor
  · rintro ⟨m', h⟩
    obtain ht | ⟨left, right, m₁, hread, -, hreason⟩ := execute_error_cases h
    · exact absurd ht (by decide)
    · cases hreason with
      | access ht => exact absurd ht (by decide)
      | emptyRange hop hle hlt => exact ⟨left, right, m₁, hread, hop, hle, hlt⟩
  · rintro ⟨left, right, m₁, hread, hop, hle, hlt⟩
    refine ⟨m₁, ?_⟩
    rw [execute_eq, EStateM.run_bind, hread]
    simp only [perform, compute, hop, drawInteger, hle, hlt, ↓reduceIte]
    rfl

end Whole

end Work

end Machine

end VirtualProcessor
