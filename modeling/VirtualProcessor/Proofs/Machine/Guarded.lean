import VirtualProcessor.Proofs.Arena.Guarded
import VirtualProcessor.Proofs.Machine.Failure
import VirtualProcessor.Proofs.Machine.Trouble
import VirtualProcessor.Proofs.Number.Truncation

/-!
# Machines that check every access

An attempt fetches an instruction, looks for the line behind a jump, moves the stack pointer, works on the memory,
goes on to the next position and lowers the watchdog. Here all this is done with checks (`guardedAttempt`): it ends
with a `Breach` where an index or a slice is not inside its array, where a sum or a difference is not a word, and where
a number is drawn from an empty range. What else there is to an instruction is taken as it is (`unguarded`): registers,
slots, the top of the stack and lines are looked up with a failure for what is not there, and arithmetic on numbers
has no words to leave.

A checked action `Follows` an action if it has the same result on all machines of some sizes, and an empty range as
its only breach. One that is put together from such actions is one again (`Follows.bind`). So attempts, runs and
calls are what they are without checks (`guardedAttempt_eq`, `guardedLoop_eq`, `guardedAnswer_eq`), but where they
break down, and for that a bound of a range must be no number (`Number.isNaN_of_toSignedWide_lt`).
-/

namespace VirtualProcessor.Machine

variable {δ α β : Type}

/-- Part of an instruction that ends with its first breach. Up to there it may change the machine and may fail. -/
abbrev GuardedAction (δ : Type) := ExceptT Fault.Cause (StateT (Machine δ) Guarded)

/-- What comes of an action if an empty range is a breach. -/
def judge : EStateM.Result Trouble (Machine δ) α → Guarded (Except Fault.Cause α × Machine δ)
  | .ok a m => .ok (.ok a, m)
  | .error (.fault cause) m => .ok (.error cause, m)
  | .error .emptyRange _ => .error .emptyRange

/-- An action in which there is nothing to check. -/
def unguarded (x : Action δ α) : GuardedAction δ α := fun m => judge (x.run m)

/-- A checked action does what an action does, on machines of the given sizes. -/
def Follows (c : Capacities) (x : Action δ α) (y : GuardedAction δ α) : Prop :=
  ∀ m, Sized c m → y.run.run m = judge (x.run m)

section Follows

variable {c : Capacities}

theorem Follows.unguarded (x : Action δ α) : Follows c x (unguarded x) := fun _ _ => rfl

theorem Follows.pure (a : α) : Follows c (pure a : Action δ α) (pure a) := fun _ _ => rfl

theorem Plain.sized [Peripheral δ] {x : Action δ α} (hx : Plain x) {m : Machine δ} (hm : Sized c m) :
    Sized c (finalOf (x.run m)) := by
  obtain ⟨w, hw, hchanges⟩ := hx.changes m
  rw [hw]
  exact hm.of_changes hchanges rfl

theorem Follows.bind [Peripheral δ] {x : Action δ α} {y : GuardedAction δ α} {f : α → Action δ β}
    {g : α → GuardedAction δ β} (hy : Follows c x y) (hx : Plain x) (hf : ∀ a, Follows c (f a) (g a)) :
    Follows c (x >>= f) (y >>= g) := by
  intro m hm
  have hfinal := hx.sized hm
  show (y.run.run m >>= _) = _
  rw [hy m hm, EStateM.run_bind]
  cases h : x.run m with
  | ok a m₁ =>
    rw [h] at hfinal
    exact hf a m₁ hfinal
  | error t m₁ => cases t <;> rfl

theorem run_get_bind_guarded (g : Machine δ → GuardedAction δ α) (m : Machine δ) :
    (get >>= g : GuardedAction δ α).run.run m = (g m).run.run m := rfl

/-- A check that is passed. -/
theorem run_passed_bind {r : Guarded α} {a : α} (hr : r = .ok a) (g : α → GuardedAction δ β) (m : Machine δ) :
    ((liftM r : GuardedAction δ α) >>= g).run.run m = (g a).run.run m := by
  subst hr
  rfl

end Follows

/-! ## The stack, the generator and the memory -/

def guardedPushValue (value : Float) : GuardedAction δ Unit := do
  let m ← get
  if m.stackPointer.toNat < m.stack.size then
    let top ← Guarded.add UInt32.size m.stackPointer.toNat 1
    set { m with stack := m.stack.setIfInBounds m.stackPointer.toNat value, stackPointer := UInt32.ofNat top }
  else throw .stackOverflow

def guardedDrawInteger (low high : Float) : GuardedAction δ Float := do
  if low > high then throw .badArguments
  else
    Guarded.range (Number.toSignedWide low).toInt (Number.toSignedWide high).toInt
    let (x, random) :=
      (← get).random.between (Number.toSignedWide low).toInt (Number.toSignedWide high).toInt
    modify fun m => { m with random }
    pure (Float.ofInt x)

def guardedAllocateBlock (length : Float) : GuardedAction δ Float := do
  match ← (← get).memory.guardedAllocate length with
  | .ok (base, memory) =>
    modify fun m => { m with memory }
    pure (Float.ofNat base)
  | .error refusal => throw (.ofRefusal refusal)

def guardedLoadCell (pointer : Float) : GuardedAction δ Float := do
  match ← (← get).memory.guardedLoad pointer with
  | .ok value => pure value
  | .error refusal => throw (.ofRefusal refusal)

/-- A request to the memory that leaves another memory behind. -/
def guardedRequest (f : Arena → Guarded (Except Arena.Refusal Arena)) : GuardedAction δ Flow := do
  match ← f (← get).memory with
  | .ok memory =>
    modify fun m => { m with memory }
    pure .next
  | .error refusal => throw (.ofRefusal refusal)

section Parts

variable {c : Capacities}

/-- The stack pointer is inside the stack when it is moved, and the stack has not more places than words. -/
theorem guardedPushValue_follows (hstack : c.stack < UInt32.size) (value : Float) :
    Follows (δ := δ) c (pushValue value) (guardedPushValue value) := by
  intro m hm
  have hsize := hm.stack
  rw [pushValue_run, guardedPushValue, run_get_bind_guarded]
  split
  case isTrue hlt =>
    have htop : UInt32.ofNat (m.stackPointer.toNat + 1) = m.stackPointer + 1 := by
      rw [UInt32.ofNat_add, UInt32.ofNat_toNat]
      rfl
    rw [run_passed_bind (Guarded.add_eq (by omega)), htop]
    rfl
  case isFalse => rfl

theorem guardedDrawInteger_follows (low high : Float) :
    Follows (δ := δ) c (drawInteger low high) (guardedDrawInteger low high) := by
  intro m _
  unfold drawInteger guardedDrawInteger
  split
  case isTrue => rfl
  case isFalse =>
    split
    case isTrue hempty =>
      rw [Guarded.range, if_pos hempty]
      rfl
    case isFalse hsome =>
      rw [run_passed_bind (Guarded.range_eq hsome)]
      rfl

theorem Sized.addressable (hmemory : c.memory < UInt32.size) {m : Machine δ} (hm : Sized c m) :
    m.memory.Addressable :=
  ⟨hm.tags.trans hm.cells.symm, hm.cells.symm ▸ hmemory⟩

theorem guardedAllocateBlock_follows (hmemory : c.memory < UInt32.size) (length : Float) :
    Follows (δ := δ) c (allocateBlock length) (guardedAllocateBlock length) := by
  intro m hm
  rw [allocateBlock, guardedAllocateBlock, run_get_bind, run_get_bind_guarded,
    run_passed_bind (Arena.guardedAllocate_eq (hm.addressable hmemory) length)]
  cases m.memory.allocate length <;> rfl

theorem guardedLoadCell_follows (hmemory : c.memory < UInt32.size) (pointer : Float) :
    Follows (δ := δ) c (do attemptTo (((← get).memory.load pointer).mapError .ofRefusal))
      (guardedLoadCell pointer) := by
  intro m hm
  rw [guardedLoadCell, run_get_bind, run_get_bind_guarded,
    run_passed_bind (Arena.guardedLoad_eq (hm.addressable hmemory) pointer)]
  cases m.memory.load pointer <;> rfl

theorem guardedRequest_follows (hmemory : c.memory < UInt32.size) {f : Arena → Except Arena.Refusal Arena}
    {g : Arena → Guarded (Except Arena.Refusal Arena)} (hg : ∀ a : Arena, a.Addressable → g a = .ok (f a)) :
    Follows (δ := δ) c (do
      let memory ← attemptTo ((f (← get).memory).mapError .ofRefusal)
      modify fun m => { m with memory }
      pure .next) (guardedRequest g) := by
  intro m hm
  rw [guardedRequest, run_get_bind, run_get_bind_guarded, run_passed_bind (hg _ (hm.addressable hmemory))]
  cases f m.memory <;> rfl

end Parts

/-! ## Instructions -/

section Instructions

variable [Peripheral δ]

def guardedJumpTo (p : Program) (position : Nat) (i : Instruction) (links taken : Bool) : GuardedAction δ Flow := do
  let target ← unguarded (readDestination i.destination)
  match destination? (← get).lineIndex target with
  | none => throw .invalidJump
  | some next =>
    -- The instructions behind the jump are looked through whether it is taken or not.
    let behind ← Guarded.add UInt64.size position 1
    Guarded.slice p.instructions behind p.size
    if taken then
      let line := p.returnLine position i.line
      if links && 0 < line then modify fun m => { m with returnAddress := line }
      pure (.jump next)
    else pure .next

/-- Writes the result of an operation. -/
def guardedResult (i : Instruction) (x : GuardedAction δ Float) : GuardedAction δ Flow := do
  let value ← x
  unguarded (write value i.destination)
  pure .next

def guardedPerform (p : Program) (position now : Nat) (i : Instruction) (left right : Float) : GuardedAction δ Flow :=
  match i.operation with
  | .jump links => guardedJumpTo p position i links true
  | .branch c links => guardedJumpTo p position i links (c.holds left right)
  | .push => do
    guardedPushValue left
    pure .next
  | .randomInteger => guardedResult i (guardedDrawInteger left right)
  | .allocate => guardedResult i (guardedAllocateBlock left)
  | .load => guardedResult i (guardedLoadCell left)
  | .free => guardedRequest (·.guardedFree left)
  | .store => guardedRequest (·.guardedStore left right)
  | _ => unguarded (perform p position now i left right)

def guardedExecute (p : Program) (position now : Nat) (i : Instruction) : GuardedAction δ Flow := do
  let left ← unguarded (readSource i.left)
  let right ← unguarded (readSource i.right)
  guardedPerform p position now i left right

variable {c : Capacities} {p : Program} {position : Nat}

theorem guardedJumpTo_follows (hp : p.size < UInt64.size) (hposition : position < p.size) (i : Instruction)
    (links taken : Bool) :
    Follows (δ := δ) c (jumpTo p position i links taken) (guardedJumpTo p position i links taken) := by
  refine Follows.bind (.unguarded _) (readDestination_plain _) fun target m _ => ?_
  rw [run_get_bind, run_get_bind_guarded]
  cases destination? m.lineIndex target with
  | none => rfl
  | some next =>
    simp only
    rw [run_passed_bind (Guarded.add_eq (by omega)), run_passed_bind (Guarded.slice_eq hposition (Nat.le_refl _))]
    cases taken with
    | false => rfl
    | true =>
      simp only [if_true]
      split <;> rfl

theorem guardedResult_follows {i : Instruction} {left right : Float} {y : GuardedAction δ Float}
    (hy : Follows c (compute i left right) y) :
    Follows c (do
      let value ← compute i left right
      write value i.destination
      pure Flow.next) (guardedResult i y) :=
  hy.bind (compute_plain i left right) fun _ =>
    (Follows.unguarded _).bind (write_plain _ i.destination) fun _ => .pure _

variable (hstack : c.stack < UInt32.size) (hmemory : c.memory < UInt32.size) (hp : p.size < UInt64.size)
  (hposition : position < p.size)

include hstack hmemory hp hposition

theorem guardedPerform_follows (now : Nat) (i : Instruction) (left right : Float) :
    Follows (δ := δ) c (perform p position now i left right) (guardedPerform p position now i left right) := by
  cases ho : i.operation with
  | jump links =>
    rw [perform, guardedPerform, ho]
    exact guardedJumpTo_follows hp hposition i links true
  | branch condition links =>
    rw [perform, guardedPerform, ho]
    exact guardedJumpTo_follows hp hposition i links (condition.holds left right)
  | push =>
    rw [perform, guardedPerform, ho]
    exact (guardedPushValue_follows hstack left).bind (pushValue_plain left) fun _ => .pure _
  | free =>
    rw [perform, guardedPerform, ho]
    exact guardedRequest_follows hmemory fun _ ha => Arena.guardedFree_eq ha left
  | store =>
    rw [perform, guardedPerform, ho]
    exact guardedRequest_follows hmemory fun _ ha => Arena.guardedStore_eq ha left right
  | randomInteger =>
    have hcompute : compute (δ := δ) i left right = drawInteger left right := by rw [compute, ho]
    rw [perform, guardedPerform, ho]
    exact guardedResult_follows (hcompute ▸ guardedDrawInteger_follows left right)
  | allocate =>
    have hcompute : compute (δ := δ) i left right = allocateBlock left := by rw [compute, ho]
    rw [perform, guardedPerform, ho]
    exact guardedResult_follows (hcompute ▸ guardedAllocateBlock_follows hmemory left)
  | load =>
    have hcompute : compute (δ := δ) i left right =
        (do attemptTo (((← get).memory.load left).mapError .ofRefusal)) := by rw [compute, ho]
    rw [perform, guardedPerform, ho]
    exact guardedResult_follows (hcompute ▸ guardedLoadCell_follows hmemory left)
  | _ =>
    rw [guardedPerform, ho]
    exact .unguarded _

theorem guardedExecute_follows (now : Nat) (i : Instruction) :
    Follows (δ := δ) c (execute p position now i) (guardedExecute p position now i) :=
  (Follows.unguarded _).bind (readSource_plain i.left) fun left =>
    (Follows.unguarded _).bind (readSource_plain i.right) fun right =>
      guardedPerform_follows hstack hmemory hp hposition now i left right

end Instructions

/-! ## Attempts -/

def guardedAdvance (m : Machine δ) (size : Nat) : Flow → Guarded (Machine δ)
  | .next => do .ok { m with position := ← Guarded.add UInt64.size m.position 1 }
  | .jump position => .ok { m with position }
  | .suspend _ => do .ok { m with position := ← Guarded.add UInt64.size m.position 1 }
  | .finish => .ok { m with position := size }

def guardedComplete (m : Machine δ) (i : Instruction) (flow : Flow) (report : Notice) : Guarded (Attempt δ) :=
  let counted := { m with frame := m.frame + 1 }
  let ended (watched : Machine δ) : Attempt δ :=
    match flow.outcome? with
    | some outcome => ⟨watched.settle outcome, some (.outcome outcome), [report], m.shown i⟩
    | none => ⟨watched, none, [report], m.shown i⟩
  match m.watchdog with
  | none => .ok (ended counted)
  | some 0 =>
    let fault := Fault.failed .watchdogBark (locationOf i)
    .ok ⟨counted.latch fault, some (.fault fault), [report, .barked i.line, .halted fault], m.shown i⟩
  | some left => do .ok (ended { counted with watchdog := some (← Guarded.sub left 1) })

theorem guardedAdvance_eq {m : Machine δ} {size : Nat} (hposition : m.position < size) (hsize : size < UInt64.size)
    (flow : Flow) : m.guardedAdvance size flow = .ok (m.advance size flow) := by
  have hadd : Guarded.add UInt64.size m.position 1 = .ok (m.position + 1) := Guarded.add_eq (by omega)
  cases flow with
  | next =>
    rw [guardedAdvance, hadd, ok_bind]
    rfl
  | suspend outcome =>
    rw [guardedAdvance, hadd, ok_bind]
    rfl
  | jump position => rfl
  | finish => rfl

theorem guardedComplete_eq (m : Machine δ) (i : Instruction) (flow : Flow) (report : Notice) :
    m.guardedComplete i flow report = .ok (m.complete i flow report) := by
  unfold guardedComplete complete
  rcases m.watchdog with _ | _ | n
  · cases flow.outcome? <;> simp only [shown, Option.map_none]
  · simp only [shown]
  · simp only [Guarded.sub_eq (Nat.le_add_left 1 n), ok_bind]
    cases flow.outcome? <;> simp only [shown, Option.map_some]

theorem complete_ne_breakdown (m : Machine δ) (i : Instruction) (flow : Flow) (report : Notice) :
    (m.complete i flow report).ending ≠ some .breakdown := by
  unfold complete
  simp only
  split
  · simp
  · split <;> simp

/-- An attempt, unless it breaks down. -/
def Attempt.unbroken (a : Attempt δ) : Guarded (Attempt δ) :=
  if a.ending = some .breakdown then .error .emptyRange else .ok a

section Runs

variable [Peripheral δ]

/-- Attempts the instruction that comes next. -/
def guardedAttempt (m : Machine δ) (p : Program) (now : Nat) : Guarded (Attempt δ) := do
  let i ← Guarded.get p.instructions m.position
  let report := Notice.step m.frame i
  match ← (guardedExecute p m.position now i).run.run m with
  | (.ok flow, m) => guardedComplete (← m.guardedAdvance p.size flow) i flow report
  | (.error cause, m) =>
    let fault := Fault.failed cause (locationOf i)
    .ok ⟨m.latch fault, some (.fault fault), [report, .halted fault], []⟩

/-! ## Runs -/

/-- A run, unless it breaks down. -/
def Run.unbroken (r : Run δ) : Guarded (Run δ) := if r.ending = .breakdown then .error .emptyRange else .ok r

def guardedLoop (p : Program) (now : Nat) :
    (budget : Nat) → Machine δ → List Notice → List Snapshot → Guarded (Run δ)
  | 0, m, notices, snapshots => .ok (loop p now 0 m notices snapshots)
  | budget + 1, m, notices, snapshots =>
    if m.position < p.size then do
      let a ← m.guardedAttempt p now
      match a.ending with
      | some ending =>
        .ok ⟨a.machine, ending, (a.notices.reverse ++ notices).reverse, (a.snapshots.reverse ++ snapshots).reverse⟩
      | none =>
        guardedLoop p now budget a.machine (a.notices.reverse ++ notices) (a.snapshots.reverse ++ snapshots)
    else .ok ⟨m.settle .finished, .outcome .finished, notices.reverse, snapshots.reverse⟩

/-- Answers a call. One that finds nothing to do needs no checks. -/
def guardedAnswer (m : Machine δ) (call : Call) : Guarded (Run δ) :=
  match m.program with
  | none => .ok (m.answer call)
  | some p =>
    if m.failure = none ∧ m.position < p.size ∧ m.isAsleep call.start = false then
      guardedLoop p call.later call.budget m.awakened [] []
    else .ok (m.answer call)

variable {c : Capacities} (hstack : c.stack < UInt32.size) (hmemory : c.memory < UInt32.size)

include hstack hmemory

theorem guardedAttempt_eq {p : Program} (hp : p.size < UInt64.size) {m : Machine δ} (hm : Sized c m) {i : Instruction}
    (hi : p.instructions[m.position]? = some i) (now : Nat) :
    m.guardedAttempt p now = (m.attempt p now i).unbroken := by
  have hposition : m.position < p.size := (Array.getElem?_eq_some_iff.mp hi).1
  unfold guardedAttempt attempt
  rw [Guarded.get_eq hi, ok_bind]
  simp only
  rw [guardedExecute_follows hstack hmemory hp hposition now i m hm]
  cases h : (execute p m.position now i).run m with
  | ok flow m₁ =>
    have hkept : m₁.position < p.size := by
      obtain ⟨-, w, wake, rfl, -⟩ := execute_ok h
      exact hposition
    simp only [judge]
    rw [ok_bind]
    simp only
    rw [guardedAdvance_eq hkept hp, ok_bind, guardedComplete_eq, Attempt.unbroken,
      if_neg (complete_ne_breakdown _ i flow _)]
  | error t m₁ =>
    cases t with
    | fault cause => rfl
    | emptyRange => rfl

theorem guardedLoop_eq {p : Program} (hp : p.size < UInt64.size) {m : Machine δ} (hm : Sized c m) (now budget : Nat)
    (notices : List Notice) (snapshots : List Snapshot) :
    guardedLoop p now budget m notices snapshots = (loop p now budget m notices snapshots).unbroken := by
  induction budget generalizing m notices snapshots with
  | zero => rfl
  | succ budget ih =>
    rw [guardedLoop, loop]
    cases hi : p.instructions[m.position]? with
    | none =>
      have hend : ¬ m.position < p.size := Nat.not_lt.mpr (Array.getElem?_eq_none_iff.mp hi)
      rw [if_neg hend]
      rfl
    | some i =>
      have hposition : m.position < p.size := (Array.getElem?_eq_some_iff.mp hi).1
      have hnext : Sized c (m.attempt p now i).machine :=
        hm.of_changes (attempt_changes m p now i) (attempt_attempted m p now i).slots
      rw [if_pos hposition, guardedAttempt_eq hstack hmemory hp hm hi, Attempt.unbroken]
      simp only
      cases he : (m.attempt p now i).ending with
      | none =>
        rw [if_neg (by simp), ok_bind]
        simp only [he]
        exact ih hnext _ _
      | some ending =>
        by_cases hb : ending = .breakdown
        · rw [if_pos (congrArg some hb), Run.unbroken, if_pos hb]
          rfl
        · rw [if_neg fun h => hb (Option.some.inj h), ok_bind, Run.unbroken, if_neg hb]
          simp only [he]

theorem guardedAnswer_eq {m : Machine δ} (hm : Sized c m) (hp : ∀ p, m.program = some p → p.size < UInt64.size)
    (call : Call) : m.guardedAnswer call = (m.answer call).unbroken := by
  unfold guardedAnswer answer
  cases hprogram : m.program with
  | none =>
    rw [runDuring_unloaded hprogram]
    rfl
  | some p =>
    simp only
    cases hf : m.failure with
    | some fault =>
      rw [if_neg (fun h => by cases h.1), runDuring_failed hprogram hf]
      rfl
    | none =>
      by_cases he : p.size ≤ m.position
      · rw [if_neg fun h => Nat.not_lt.mpr he h.2.1, runDuring_atEnd hprogram hf he]
        rfl
      cases ha : m.isAsleep call.start with
      | true =>
        rw [if_neg (fun h => by cases h.2.2), runDuring_asleep hprogram hf he ha]
        rfl
      | false =>
        rw [if_pos ⟨rfl, Nat.not_le.mp he, rfl⟩, runDuring_awake hprogram hf he ha]
        have hawakened : Sized c m.awakened := ⟨hm.registers, hm.stack, hm.cells, hm.tags, hm.slots⟩
        exact guardedLoop_eq hstack hmemory (hp p hprogram) hawakened _ _ _ _

omit hstack hmemory in
theorem attempt_implemented (m : Machine δ) (p : Program) (now : Nat) (i : Instruction) (location : Location) :
    (m.attempt p now i).ending ≠ some (.fault (.failed .notImplemented location)) := by
  intro he
  obtain ⟨m', h⟩ := (attempt_attempted m p now i).run_of_fault (by decide) he
  exact execute_implemented p m.position now i m _ m' h rfl

end Runs

/-- The places of a stack and the cells of a memory are counted in words of 32 bits, and the instructions of a program
in words of 64. Whatever a host does to such a machine and whatever programs it loads, no attempt at an instruction
uses an index or a slice outside of an array or leaves the words in its arithmetic, and none finds an operation that is
not implemented. An attempt breaks down exactly when it has read the bounds of a random integer, the lower one is not
greater as a number and is greater as an integer, and then one of the bounds is no number. Also what whole calls do is
what they do with every access checked. -/
theorem breaches_emptyRange_only [Peripheral δ] (c : Capacities) (hstack : c.stack < UInt32.size)
    (hmemory : c.memory < UInt32.size) (seed : UInt64) (bench : Bench δ) (moves : List (Move δ)) :
    (∀ s ∈ (new c seed bench).tried moves, ∃ p, s.Fetches p ∧
      let a := s.machine.attempt p s.now s.instruction
      (p.size < UInt64.size → s.machine.guardedAttempt p s.now = a.unbroken) ∧
      (∀ location, a.ending ≠ some (.fault (.failed .notImplemented location))) ∧
      (a.ending = some .breakdown ↔
        ∃ left right m₁, (sources s.instruction).run s.machine = .ok (left, right) m₁ ∧
          LeavesNone s.instruction left right) ∧
      ∀ left right, LeavesNone s.instruction left right → left.isNaN = true ∨ right.isNaN = true) ∧
    let m := (new c seed bench).afterAll moves
    (∀ p, m.program = some p → p.size < UInt64.size) →
      ∀ call, m.guardedAnswer call = (m.answer call).unbroken := by
  have hsized {m : Machine δ} (h : Reachable c seed bench m) : Sized c m :=
    (sized_kept c).reachable (sized_new c seed bench) h
  refine ⟨fun s hs => ?_, fun hp call => ?_⟩
  · obtain ⟨p, hfetches⟩ := exists_fetches_of_tried _ moves s hs
    refine ⟨p, hfetches, fun hp => ?_, attempt_implemented _ p s.now s.instruction, ?_, ?_⟩
    · exact guardedAttempt_eq hstack hmemory hp (hsized (.within moves hs)) hfetches.instruction s.now
    · exact (attempt_attempted _ p s.now s.instruction).breakdown_iff.trans execute_emptyRange_iff
    · rintro left right ⟨-, hle, hlt⟩
      exact Number.isNaN_of_toSignedWide_lt hle hlt
  · exact guardedAnswer_eq hstack hmemory (hsized (.between moves)) hp call

/-- A program fills the stack and draws an integer between what is no number, and as an integer is 0, and -1. The call
that attempts both instructions breaks down in the second one; the first one does as without checks. -/
theorem breaches_emptyRange_only_unordered :
    let number (x : Float) : Option Operand := some (.literal (Number.Stored.ofFloat x))
    let pushing : Instruction := { operation := .push, left := number 5, line := 1 }
    let drawing : Instruction :=
      { operation := .randomInteger, destination := some (.register 0), left := number (0 / 0), right := number (-1)
        line := 2 }
    let p : Program := { target := .debug, instructions := #[pushing, drawing] }
    let fresh : Machine Device := new ⟨1, 1, 0, 0⟩ 7 {}
    let m := fresh.afterAll [.load p {}]
    (∃ s ∈ fresh.tried [.load p {}, .run ⟨0, 0, 5⟩], s.instruction = drawing ∧
      (s.machine.attempt p s.now drawing).ending = some .breakdown ∧
      s.machine.guardedAttempt p s.now = .error .emptyRange) ∧
    m.guardedAnswer ⟨0, 0, 5⟩ = .error .emptyRange ∧ m.guardedAnswer ⟨0, 0, 1⟩ = .ok (m.answer ⟨0, 0, 1⟩) := by
  intro number pushing drawing p fresh m
  obtain ⟨hsteps, -⟩ := breaches_emptyRange_only (δ := Device) ⟨1, 1, 0, 0⟩ (by decide) (by decide) 7 {}
    [.load p {}, .run ⟨0, 0, 5⟩]
  obtain ⟨-, hcalls⟩ := breaches_emptyRange_only (δ := Device) ⟨1, 1, 0, 0⟩ (by decide) (by decide) 7 {} [.load p {}]
  have hsize : p.size < UInt64.size := by decide
  have hcalls := hcalls fun q hq => Option.some.inj (show some p = some q from hq) ▸ hsize
  refine ⟨?_, ?_, ?_⟩
  · have htried : (fresh.tried [.load p {}, .run ⟨0, 0, 5⟩]).map (fun s => (s.instruction, s.machine.program)) =
        [(pushing, some p), (drawing, some p)] := by decide +kernel
    have hmem : (drawing, some p) ∈
        (fresh.tried [.load p {}, .run ⟨0, 0, 5⟩]).map fun s => (s.instruction, s.machine.program) := by
      rw [htried]
      exact List.mem_cons_of_mem _ List.mem_cons_self
    obtain ⟨s, hs, heq⟩ := List.mem_map.mp hmem
    obtain ⟨hi, hp⟩ := Prod.mk.inj heq
    obtain ⟨q, hfetches, hguarded, -, hbreakdown, -⟩ := hsteps s hs
    obtain rfl : p = q := Option.some.inj (hp.symm.trans hfetches.program)
    rw [hi] at hguarded hbreakdown
    have hend := hbreakdown.mpr ⟨_, _, s.machine, rfl, rfl, by decide +kernel, by decide +kernel⟩
    exact ⟨s, hs, hi, hend, (hguarded hsize).trans (if_pos hend)⟩
  · have hend : (m.answer ⟨0, 0, 5⟩).ending = .breakdown := by decide +kernel
    exact (hcalls _).trans (if_pos hend)
  · have hend : (m.answer ⟨0, 0, 1⟩).ending ≠ .breakdown := by decide +kernel
    exact (hcalls _).trans (if_neg hend)

end VirtualProcessor.Machine
