import VirtualProcessor.Proofs.Machine.Watchdog

/-!
# What changes the return address

`Keeps view x` says that the action `x` leaves what `view` sees of a machine as it is, whether it comes through
or not. It is closed under doing one thing after the other, so that it is shown once for all instructions which of
them keep the stack and which the return address (`perform_keeps`). All keep the return address but those that write
to it and a jump that is taken and links:

* `jumps_iff_compares`: an instruction jumps if and only if it is a jump or branch that compares as it should;
* `taken_of_compares`: a jump or branch that compares as it should goes on where its destination says;
* `returnAddress_taken`: one that is taken and links leaves the line behind it;
* `attempt_keeps`: any other attempt keeps the return address, unless the instruction writes to it.
-/

namespace VirtualProcessor

/-- Whether a jump or a branch is taken, given the values that it compares. -/
def Operation.takes (op : Operation) (left right : Float) : Bool :=
  match op with
  | .jump _ => true
  | .branch c _ => c.holds left right
  | _ => false

namespace Machine

variable {δ : Type} {α β γ : Type}

/-! ## Frames -/

/-- An action that leaves what `view` sees of a machine as it is, whether it fails or not. -/
def Keeps (view : Machine δ → γ) (x : Action δ α) : Prop := ∀ m, view (finalOf (x.run m)) = view m

namespace Keeps

variable {view : Machine δ → γ}

theorem pure (a : α) : Keeps view (pure a : Action δ α) := fun _ => rfl

theorem throw (t : Trouble) : Keeps view (throw t : Action δ α) := fun _ => rfl

theorem fail (cause : Fault.Cause) : Keeps view (fail cause : Action δ α) := throw _

theorem attemptTo (r : Except Fault.Cause α) : Keeps view (attemptTo r : Action δ α) := by
  cases r with
  | ok a => exact pure a
  | error cause => exact fail cause

theorem bind {x : Action δ α} {f : α → Action δ β} (hx : Keeps view x) (hf : ∀ a, Keeps view (f a)) :
    Keeps view (x >>= f) := by
  intro m
  have hm := hx m
  rw [EStateM.run_bind]
  cases e : x.run m with
  | ok a m₁ =>
    rw [e] at hm
    exact (hf a m₁).trans hm
  | error t m₁ =>
    rw [e] at hm
    exact hm

theorem get_bind {f : Machine δ → Action δ α} (hf : ∀ m, Keeps view (f m)) : Keeps view (get >>= f) :=
  fun m => hf m m

theorem modify {f : Machine δ → Machine δ} (hf : ∀ m, view (f m) = view m) :
    Keeps view (modify f : Action δ PUnit) := hf

theorem ite {c : Prop} [Decidable c] {x y : Action δ α} (hx : Keeps view x) (hy : Keeps view y) :
    Keeps view (if c then x else y) := by
  split
  · exact hx
  · exact hy

theorem of_ok {x : Action δ α} (hx : Keeps view x) {m m' : Machine δ} {a : α} (h : x.run m = .ok a m') :
    view m' = view m := by
  have hm := hx m
  rwa [h] at hm

theorem of_error {x : Action δ α} (hx : Keeps view x) {m m' : Machine δ} {t : Trouble}
    (h : x.run m = .error t m') : view m' = view m := by
  have hm := hx m
  rwa [h] at hm

end Keeps

/-! ## Parts of an instruction -/

/-- A view of a machine that looks neither at the registers nor at the memory, the generator, the devices and the end
of a sleep. Of what instructions change the stack and the return address are left. -/
structure Aside (view : Machine δ → γ) : Prop where
  registers (m : Machine δ) (registers : Array Float) : view { m with registers } = view m
  memory (m : Machine δ) (memory : Arena) : view { m with memory } = view m
  random (m : Machine δ) (random : Random.Generator) : view { m with random } = view m
  bench (m : Machine δ) (bench : Bench δ) : view { m with bench } = view m
  wakeAt (m : Machine δ) (wakeAt : Option Nat) : view { m with wakeAt } = view m

/-- A view that does not look at the stack. -/
def IgnoresStack (view : Machine δ → γ) : Prop :=
  ∀ m stack stackPointer, view { m with stack, stackPointer } = view m

/-- A view that does not look at the return address. -/
def IgnoresReturn (view : Machine δ → γ) : Prop := ∀ m returnAddress, view { m with returnAddress } = view m

theorem returnAddress_aside : Aside (δ := δ) returnAddress where
  registers _ _ := rfl
  memory _ _ := rfl
  random _ _ := rfl
  bench _ _ := rfl
  wakeAt _ _ := rfl

/-- Looking a device up changes nothing at all. -/
theorem placeOf_keeps (view : Machine δ → γ) (slot : UInt16) : Keeps view (placeOf slot : Action δ Nat) := by
  refine Keeps.get_bind fun m => ?_
  split
  · exact Keeps.fail _
  · exact Keeps.fail _
  · exact Keeps.pure _

theorem peekValue_keeps (view : Machine δ → γ) : Keeps view (peekValue : Action δ Float) := by
  refine Keeps.get_bind fun m => ?_
  split
  · exact Keeps.pure _
  · exact Keeps.fail _

section

variable {view : Machine δ → γ}

theorem popValue_keeps (hstack : IgnoresStack view) : Keeps view (popValue : Action δ Float) := by
  intro m
  rw [popValue_run]
  split
  · exact hstack m m.stack _
  · rfl

theorem pushValue_keeps (hstack : IgnoresStack view) (value : Float) :
    Keeps view (pushValue value : Action δ Unit) := by
  intro m
  rw [pushValue_run]
  split
  · exact hstack m _ _
  · rfl

theorem drawReal_keeps (hview : Aside view) (low high : Float) : Keeps view (drawReal low high : Action δ Float) := by
  refine Keeps.ite (Keeps.fail _) (Keeps.get_bind fun m => ?_)
  exact Keeps.bind (Keeps.modify fun m => hview.random m _) fun _ => Keeps.pure _

theorem drawInteger_keeps (hview : Aside view) (low high : Float) :
    Keeps view (drawInteger low high : Action δ Float) := by
  refine Keeps.ite (Keeps.fail _) (Keeps.ite (Keeps.throw _) (Keeps.get_bind fun m => ?_))
  exact Keeps.bind (Keeps.modify fun m => hview.random m _) fun _ => Keeps.pure _

theorem allocateBlock_keeps (hview : Aside view) (length : Float) :
    Keeps view (allocateBlock length : Action δ Float) := by
  refine Keeps.get_bind fun m => ?_
  split
  · exact Keeps.bind (Keeps.modify fun m => hview.memory m _) fun _ => Keeps.pure _
  · exact Keeps.fail _

theorem sleepFor_keeps (hview : Aside view) (now : Nat) (milliseconds : Float) :
    Keeps view (sleepFor now milliseconds : Action δ Unit) := by
  refine Keeps.ite ?_ (Keeps.pure _)
  split
  · exact Keeps.modify fun m => hview.wakeAt m _
  · exact Keeps.fail _

end

section Work

variable [Peripheral δ]

section

variable {view : Machine δ → γ} (hview : ∀ m bench, view { m with bench } = view m)

include hview

/-- Reading changes nothing but the devices. -/
theorem read_keeps (op : Operand) : Keeps view (read op : Action δ Float) := by
  cases op with
  | literal value => exact Keeps.pure _
  | hexLiteral value => exact Keeps.pure _
  | register index =>
    refine Keeps.get_bind fun m => ?_
    split
    · exact Keeps.pure _
    · exact Keeps.fail _
  | stackPointer => exact Keeps.get_bind fun m => Keeps.pure _
  | returnAddress => exact Keeps.get_bind fun m => Keeps.pure _
  | device slot index =>
    refine Keeps.bind (placeOf_keeps view slot) fun place => Keeps.get_bind fun m => ?_
    exact Keeps.bind (Keeps.modify fun m => hview m _) fun _ => Keeps.attemptTo _

theorem readSource_keeps (op : Option Operand) : Keeps view (readSource op : Action δ Float) := by
  cases op with
  | some op => exact read_keeps hview op
  | none => exact Keeps.pure _

theorem readDestination_keeps (op : Option Operand) : Keeps view (readDestination op : Action δ Float) := by
  cases op with
  | some op => exact read_keeps hview op
  | none => exact Keeps.fail _

theorem sources_keeps (i : Instruction) : Keeps view (sources i : Action δ (Float × Float)) :=
  Keeps.bind (readSource_keeps hview _) fun _ => Keeps.bind (readSource_keeps hview _) fun _ => Keeps.pure _

end

/-- An action that keeps the return address. -/
abbrev KeepsReturn (x : Action δ α) : Prop := Keeps returnAddress x

theorem readSource_keepsReturn (op : Option Operand) : KeepsReturn (readSource op : Action δ Float) :=
  readSource_keeps (fun _ _ => rfl) op

theorem readDestination_keepsReturn (op : Option Operand) : KeepsReturn (readDestination op : Action δ Float) :=
  readDestination_keeps (fun _ _ => rfl) op

section

variable {view : Machine δ → γ} (hview : Aside view)

include hview

theorem write_keeps (value : Float) {op : Option Operand} (hstack : op = some .stackPointer → IgnoresStack view)
    (hreturn : op = some .returnAddress → IgnoresReturn view) : Keeps view (write value op : Action δ Unit) := by
  match op with
  | some (.register index) =>
    exact Keeps.get_bind fun m => Keeps.ite (Keeps.modify fun m => hview.registers m _) (Keeps.fail _)
  | some .stackPointer => exact Keeps.modify fun m => hstack rfl m m.stack _
  | some .returnAddress => exact Keeps.modify fun m => hreturn rfl m _
  | some (.device slot index) =>
    refine Keeps.bind (placeOf_keeps _ slot) fun place => Keeps.get_bind fun m => ?_
    exact Keeps.bind (Keeps.modify fun m => hview.bench m _) fun _ => Keeps.attemptTo _
  | some (.literal _) => exact Keeps.fail _
  | some (.hexLiteral _) => exact Keeps.fail _
  | none => exact Keeps.fail _

theorem compute_keeps {i : Instruction} (hstack : i.operation = .pop → IgnoresStack view) (left right : Float) :
    Keeps view (compute i left right : Action δ Float) := by
  unfold compute
  split
  · exact popValue_keeps (hstack ‹_›)
  · exact peekValue_keeps _
  · exact Keeps.bind (readDestination_keeps hview.bench _) fun _ => Keeps.pure _
  · exact Keeps.bind (readDestination_keeps hview.bench _) fun _ => Keeps.pure _
  · exact Keeps.attemptTo _
  · exact Keeps.attemptTo _
  · exact drawReal_keeps hview _ _
  · exact drawInteger_keeps hview _ _
  · exact Keeps.pure _
  · exact allocateBlock_keeps hview _
  · exact Keeps.get_bind fun m => Keeps.attemptTo _
  · exact Keeps.fail _

theorem check_keeps (i : Instruction) (expected : Float) : Keeps view (check i expected : Action δ Unit) :=
  Keeps.bind (readDestination_keeps hview.bench _) fun _ => Keeps.ite (Keeps.fail _) (Keeps.pure _)

/-- A jump keeps all but the return address, and that too if it does not link or is not taken. -/
theorem jumpTo_keeps (p : Program) (position : Nat) (i : Instruction) {links taken : Bool}
    (h : links = false ∨ taken = false ∨ IgnoresReturn view) :
    Keeps view (jumpTo p position i links taken : Action δ Flow) := by
  refine Keeps.bind (readDestination_keeps hview.bench _) fun target => Keeps.get_bind fun m => ?_
  split
  · exact Keeps.fail _
  · rcases h with rfl | rfl | hreturn
    · exact Keeps.ite (Keeps.pure _) (Keeps.pure _)
    · exact Keeps.pure _
    · refine Keeps.ite (Keeps.ite ?_ (Keeps.pure _)) (Keeps.pure _)
      exact Keeps.bind (Keeps.modify fun m => hreturn m _) fun _ => Keeps.pure _

/-- The work of an instruction changes the stack if it is `push` or `pop` or writes to the stack pointer, and the
return address if it is a jump or writes to it. -/
theorem perform_keeps (p : Program) (position now : Nat) {i : Instruction}
    (hstack : i.operation = .push ∨ i.operation = .pop ∨ i.destination = some .stackPointer → IgnoresStack view)
    (hreturn : i.operation.isJump = true ∨ i.destination = some .returnAddress → IgnoresReturn view)
    (left right : Float) : Keeps view (perform p position now i left right : Action δ Flow) := by
  unfold perform
  split
  · exact Keeps.pure _
  · exact Keeps.pure _
  · exact Keeps.pure _
  · exact Keeps.fail _
  · exact Keeps.pure _
  · exact Keeps.bind (sleepFor_keeps hview _ _) fun _ => Keeps.pure _
  · rename_i h
    exact jumpTo_keeps hview p position i (.inr (.inr (hreturn (.inl (by rw [h]; rfl)))))
  · rename_i h
    exact jumpTo_keeps hview p position i (.inr (.inr (hreturn (.inl (by rw [h]; rfl)))))
  · exact Keeps.bind (pushValue_keeps (hstack (.inl ‹_›)) _) fun _ => Keeps.pure _
  · exact Keeps.ite (Keeps.bind (check_keeps hview _ _) fun _ => Keeps.pure _) (Keeps.pure _)
  · refine Keeps.get_bind fun m => Keeps.bind (Keeps.attemptTo _) fun memory => ?_
    exact Keeps.bind (Keeps.modify fun m => hview.memory m _) fun _ => Keeps.pure _
  · refine Keeps.get_bind fun m => Keeps.bind (Keeps.attemptTo _) fun memory => ?_
    exact Keeps.bind (Keeps.modify fun m => hview.memory m _) fun _ => Keeps.pure _
  · refine Keeps.bind (compute_keeps hview (fun h => hstack (.inr (.inl h))) left right) fun value => ?_
    refine Keeps.bind (write_keeps hview _ (fun h => hstack (.inr (.inr h))) fun h => hreturn (.inr h)) fun _ => ?_
    exact Keeps.pure _

end

/-! ## Jumps -/

theorem perform_jump (p : Program) (position now : Nat) {i : Instruction} (h : i.operation.isJump = true)
    (left right : Float) :
    (perform p position now i left right : Action δ Flow) =
      jumpTo p position i i.operation.links (i.operation.takes left right) := by
  unfold perform
  cases ho : i.operation with
  | jump links => rfl
  | branch c links => rfl
  | _ =>
    rw [ho] at h
    cases h

theorem isJump_of_takes {op : Operation} {left right : Float} (h : op.takes left right = true) :
    op.isJump = true := by
  unfold Operation.takes at h
  split at h
  · rfl
  · rfl
  · cases h

/-- What a jump or a branch compares can be read and compares as it should. -/
def Compares (m : Machine δ) (i : Instruction) : Prop :=
  ∃ left m₁ right m₂, (readSource i.left).run m = .ok left m₁ ∧ (readSource i.right).run m₁ = .ok right m₂ ∧
    i.operation.takes left right = true

/-- The jump or the branch of an instruction is taken. -/
def Taken (m : Machine δ) (p : Program) (now : Nat) (i : Instruction) : Prop :=
  m.Compares i ∧ m.comesThrough p now i = true

/-- The machine once a jump that links has left a return address. -/
def linked (m : Machine δ) (links : Bool) (line : UInt32) : Machine δ :=
  if links && 0 < line then { m with returnAddress := line } else m

theorem jumpTo_run (p : Program) (position : Nat) (i : Instruction) (links taken : Bool) (m : Machine δ) :
    (jumpTo p position i links taken).run m =
      match (readDestination i.destination).run m with
      | .error t m₁ => .error t m₁
      | .ok target m₁ =>
        match destination? m₁.lineIndex target with
        | none => .error (.fault .invalidJump) m₁
        | some next =>
          if taken then .ok (.jump next) (m₁.linked links (p.returnLine position i.line)) else .ok .next m₁ := by
  unfold jumpTo
  rw [EStateM.run_bind]
  cases (readDestination i.destination).run m with
  | error t m₁ => rfl
  | ok target m₁ =>
    simp only [run_get_bind]
    cases destination? m₁.lineIndex target with
    | none => rfl
    | some next =>
      cases taken with
      | false => rfl
      | true =>
        unfold linked
        by_cases h : (links && decide (0 < p.returnLine position i.line)) = true
        · simp only [h, ↓reduceIte]
          rfl
        · simp only [h, ↓reduceIte]
          rfl

/-- A jump that fails has not linked. -/
theorem jumpTo_error {p : Program} {position : Nat} {i : Instruction} {links taken : Bool} {m m' : Machine δ}
    {t : Trouble} (h : (jumpTo p position i links taken).run m = .error t m') :
    m'.returnAddress = m.returnAddress := by
  rw [jumpTo_run] at h
  cases hd : (readDestination i.destination).run m with
  | error t₁ m₁ =>
    rw [hd] at h
    cases h
    exact (readDestination_keepsReturn _).of_error hd
  | ok target m₁ =>
    simp only [hd] at h
    cases hn : destination? m₁.lineIndex target with
    | none =>
      simp only [hn] at h
      cases h
      exact (readDestination_keepsReturn _).of_ok hd
    | some next =>
      simp only [hn] at h
      split at h <;> cases h

/-- A jump that does not fail goes on at the position that its destination names, if it is taken. -/
theorem jumpTo_ok {p : Program} {position : Nat} {i : Instruction} {links taken : Bool} {m m' : Machine δ}
    {flow : Flow} (h : (jumpTo p position i links taken).run m = .ok flow m') :
    ∃ target m₁ next, (readDestination i.destination).run m = .ok target m₁ ∧
      destination? m.lineIndex target = some next ∧ flow = if taken then .jump next else .next := by
  rw [jumpTo_run] at h
  cases hd : (readDestination i.destination).run m with
  | error t m₁ =>
    simp only [hd] at h
    cases h
  | ok target m₁ =>
    simp only [hd] at h
    obtain ⟨w, rfl⟩ := (readDestination_plain _).eq_of_ok hd
    cases hn : destination? (m.withWorkspace w).lineIndex target with
    | none =>
      simp only [hn] at h
      cases h
    | some next =>
      refine ⟨target, _, next, rfl, hn, ?_⟩
      simp only [hn] at h
      cases taken with
      | true => cases h; rfl
      | false => cases h; rfl

/-- The work of an instruction that compares as it should is the jump. -/
theorem execute_of_compares {m : Machine δ} {i : Instruction} (h : m.Compares i) (p : Program)
    (position now : Nat) :
    ∃ w, (m.withWorkspace w).returnAddress = m.returnAddress ∧
      (execute p position now i).run m =
        (jumpTo p position i i.operation.links true).run (m.withWorkspace w) := by
  obtain ⟨left, m₁, right, m₂, hl, hr, ht⟩ := h
  have hreturn : m₂.returnAddress = m.returnAddress :=
    ((readSource_keepsReturn _).of_ok hr).trans ((readSource_keepsReturn _).of_ok hl)
  obtain ⟨w₁, rfl⟩ := (readSource_plain _).eq_of_ok hl
  obtain ⟨w₂, rfl⟩ := (readSource_plain _).eq_of_ok hr
  refine ⟨w₂, hreturn, ?_⟩
  unfold execute
  rw [EStateM.run_bind, hl]
  simp only
  rw [EStateM.run_bind, hr]
  simp only
  rw [perform_jump p position now (isJump_of_takes ht), ht]
  rfl

/-- The position to which the destination of a jump or a branch leads, read after what it compares. -/
def Names (m : Machine δ) (i : Instruction) (next : Nat) : Prop :=
  ∃ left m₁ right m₂ target m₃, (readSource i.left).run m = .ok left m₁ ∧
    (readSource i.right).run m₁ = .ok right m₂ ∧ (readDestination i.destination).run m₂ = .ok target m₃ ∧
    destination? m.lineIndex target = some next

/-- An instruction that is completed jumps to the position it names if it is a jump or a branch that compares as
it should, and does not jump otherwise. -/
theorem jumps_iff_compares {m m' : Machine δ} {p : Program} {position now : Nat} {i : Instruction} {flow : Flow}
    (h : (execute p position now i).run m = .ok flow m') :
    m.Compares i ∧ (∃ next, flow = .jump next ∧ m.Names i next) ∨
      ¬ m.Compares i ∧ ∀ next, flow ≠ .jump next := by
  have hsuits := execute_suits p position now i m flow m' h
  obtain ⟨left, m₁, hl, h⟩ := run_bind_ok h
  obtain ⟨right, m₂, hr, h⟩ := run_bind_ok h
  have hcompares : m.Compares i ↔ i.operation.takes left right = true := by
    refine ⟨?_, fun ht => ⟨left, m₁, right, m₂, hl, hr, ht⟩⟩
    rintro ⟨left', m₁', right', m₂', hl', hr', ht⟩
    cases hl.symm.trans hl'
    cases hr.symm.trans hr'
    exact ht
  cases hj : i.operation.isJump with
  | false =>
    refine .inr ⟨fun hc => ?_, ?_⟩
    · rw [isJump_of_takes (hcompares.mp hc)] at hj
      cases hj
    · rintro next rfl
      generalize i.operation = op at hsuits hj
      cases hsuits with
      | jump htrue =>
        rw [htrue] at hj
        cases hj
  | true =>
    rw [perform_jump p position now hj] at h
    obtain ⟨target, m₃, next, hd, hn, rfl⟩ := jumpTo_ok h
    obtain ⟨w₁, rfl⟩ := (readSource_plain _).eq_of_ok hl
    obtain ⟨w₂, rfl⟩ := (readSource_plain _).eq_of_ok hr
    rw [hcompares]
    cases i.operation.takes left right with
    | true => exact .inl ⟨rfl, next, rfl, left, _, right, _, target, m₃, hl, hr, hd, hn⟩
    | false => exact .inr ⟨Bool.false_ne_true, fun _ => nofun⟩

/-- A jump or branch that does not compare as it should, or does not link, keeps the return address. -/
theorem execute_keeps {m : Machine δ} {i : Instruction}
    (hd : i.operation.isJump = false → i.destination ≠ some .returnAddress)
    (h : i.operation.links = false ∨ ¬ m.Compares i) (p : Program) (position now : Nat) :
    (finalOf ((execute p position now i).run m)).returnAddress = m.returnAddress := by
  unfold execute
  rw [EStateM.run_bind]
  cases hl : (readSource i.left).run m with
  | error t m₁ => exact (readSource_keepsReturn _).of_error hl
  | ok left m₁ =>
    simp only
    rw [EStateM.run_bind]
    refine Eq.trans ?_ ((readSource_keepsReturn _).of_ok hl)
    cases hr : (readSource i.right).run m₁ with
    | error t m₂ => exact (readSource_keepsReturn _).of_error hr
    | ok right m₂ =>
      refine Eq.trans ?_ ((readSource_keepsReturn _).of_ok hr)
      simp only
      cases hj : i.operation.isJump with
      | false =>
        refine perform_keeps returnAddress_aside p position now (fun _ _ _ _ => rfl) (fun hr => ?_) left right m₂
        rcases hr with hr | hr
        · cases hj.symm.trans hr
        · exact absurd hr (hd hj)
      | true =>
        rw [perform_jump p position now hj]
        refine jumpTo_keeps returnAddress_aside p position i (h.imp id fun hc => .inl ?_) m₂
        exact Bool.eq_false_iff.mpr fun ht => hc ⟨left, m₁, right, m₂, hl, hr, ht⟩

/-! ## Attempts -/

/-- An attempt does to the return address what the work of the instruction does. -/
theorem returnAddress_attempt (m : Machine δ) (p : Program) (now : Nat) (i : Instruction) :
    (m.attempt p now i).machine.returnAddress =
      (finalOf ((execute p m.position now i).run m)).returnAddress :=
  congrArg Workspace.returnAddress (workspace_attempt m p now i)

/-- After an instruction that comes through the program goes on as it says. -/
theorem position_attempt {m m₁ : Machine δ} {p : Program} {now : Nat} {i : Instruction} {flow : Flow}
    (h : (execute p m.position now i).run m = .ok flow m₁) :
    (m.attempt p now i).machine.position = flow.target m.position p.size := by
  obtain ⟨w, wake, hattempt⟩ := attempt_of_ok h
  rw [hattempt]
  unfold complete
  simp only
  split
  · rfl
  · split <;> rfl

/-- An attempt keeps the return address unless it takes a jump that links or writes to it. -/
theorem attempt_keeps {m : Machine δ} {p : Program} {now : Nat} {i : Instruction}
    (hd : i.operation.isJump = false → i.destination ≠ some .returnAddress)
    (h : ¬ (i.operation.links = true ∧ m.Taken p now i)) :
    (m.attempt p now i).machine.returnAddress = m.returnAddress := by
  rw [returnAddress_attempt]
  by_cases hlinks : i.operation.links = true
  · by_cases hc : m.Compares i
    · obtain ⟨w, hw, hrun⟩ := execute_of_compares hc p m.position now
      cases hjump : (jumpTo p m.position i i.operation.links true).run (m.withWorkspace w) with
      | ok flow m₁ =>
        refine absurd ⟨hlinks, hc, ?_⟩ h
        simp only [comesThrough, hrun, hjump]
      | error t m₁ =>
        rw [hrun, hjump]
        exact (jumpTo_error hjump).trans hw
    · exact execute_keeps hd (.inr hc) p m.position now
  · exact execute_keeps hd (.inl (Bool.eq_false_iff.mpr hlinks)) p m.position now

/-- A jump that is taken and links leaves the line behind it, if there is one. -/
theorem returnAddress_taken {m : Machine δ} {p : Program} {now : Nat} {i : Instruction}
    (hlinks : i.operation.links = true) (h : m.Taken p now i) (hline : 0 < p.returnLine m.position i.line) :
    (m.attempt p now i).machine.returnAddress = p.returnLine m.position i.line := by
  obtain ⟨hc, hthrough⟩ := h
  obtain ⟨w, -, hrun⟩ := execute_of_compares hc p m.position now
  rw [returnAddress_attempt]
  unfold comesThrough at hthrough
  rw [hrun, jumpTo_run] at hthrough ⊢
  cases hd : (readDestination i.destination).run (m.withWorkspace w) with
  | error t m₁ =>
    simp only [hd] at hthrough
    cases hthrough
  | ok target m₁ =>
    simp only [hd] at hthrough ⊢
    cases hn : destination? m₁.lineIndex target with
    | none =>
      simp only [hn] at hthrough
      cases hthrough
    | some next =>
      simp only [↓reduceIte, finalOf, linked, hlinks, hline, decide_true, Bool.and_self]

/-- A jump whose destination can be read in any case and names a line is taken if it compares as it should, and
the program goes on at that line. -/
theorem taken_of_compares {m : Machine δ} {i : Instruction} {target : Float} {next : Nat} (hc : m.Compares i)
    (hd : ∀ w, (m.withWorkspace w).returnAddress = m.returnAddress →
      (readDestination i.destination).run (m.withWorkspace w) = .ok target (m.withWorkspace w))
    (hn : destination? m.lineIndex target = some next) (p : Program) (now : Nat) :
    m.Taken p now i ∧ (m.attempt p now i).machine.position = next := by
  obtain ⟨w, hw, hrun⟩ := execute_of_compares hc p m.position now
  have hn' : destination? (m.withWorkspace w).lineIndex target = some next := hn
  rw [jumpTo_run, hd w hw] at hrun
  simp only [hn', ↓reduceIte] at hrun
  refine ⟨⟨hc, ?_⟩, ?_⟩
  · simp only [comesThrough, hrun]
  · exact position_attempt hrun

end Work

end Machine

end VirtualProcessor
