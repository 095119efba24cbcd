import VirtualProcessor.Machine.Run
import VirtualProcessor.Proofs.Machine.Action

/-!
# One attempt at an instruction

`Attempted` lists all that a single attempt can come to, and `attempt_attempted` says that the list is
complete: what a run can and cannot do is read off it, case by case. `attempt_parallel` compares two
attempts: they come to the same at two times on machines that are the same but for the interludes.
-/

namespace VirtualProcessor.Machine

variable {δ : Type}

/-! ## Counting attempts -/

/-- Whether a notice reports an attempt at an instruction. -/
def Notice.isStep : Notice → Bool
  | .step .. => true
  | _ => false

/-- How many attempts at instructions are reported. -/
def attemptsIn (notices : List Notice) : Nat := notices.countP Notice.isStep

theorem attemptsIn_append (xs ys : List Notice) :
    attemptsIn (xs ++ ys) = attemptsIn xs + attemptsIn ys := List.countP_append

theorem attemptsIn_reverse (xs : List Notice) : attemptsIn xs.reverse = attemptsIn xs :=
  List.countP_reverse

/-! ## What an attempt can come to -/

/-- The position at which a program goes on. -/
def Flow.target (position size : Nat) : Flow → Nat
  | .next => position + 1
  | .jump target => target
  | .suspend _ => position + 1
  | .finish => size

theorem advance_eq (m : Machine δ) (size : Nat) (flow : Flow) :
    m.advance size flow = { m with position := flow.target m.position size } := by
  cases flow <;> rfl

/-- A machine after the work of a completed instruction, before it is counted. -/
def worked (m : Machine δ) (p : Program) (w : Workspace δ) (wake : Option Nat) (flow : Flow) : Machine δ :=
  { m.withWorkspace w with wakeAt := wake, position := flow.target m.position p.size }

/-- What the host is shown of an instruction. -/
def shown (m : Machine δ) (i : Instruction) : List Snapshot := if m.observed then [m.snapshot i] else []

/-- What an attempt at an instruction can come to, given how its work goes. -/
inductive Attempted [Peripheral δ] (m : Machine δ) (p : Program) (now : Nat) (i : Instruction) :
    Attempt δ → Prop
  /-- The instruction is completed and the run goes on. -/
  | next (w : Workspace δ) (flow : Flow) (hw : m.watchdog ≠ some 0) (hf : flow.outcome? = none)
      (hrun : (execute p m.position now i).run m = .ok flow (m.withWorkspace w)) :
    Attempted m p now i
      ⟨{ m.worked p w m.wakeAt flow with frame := m.frame + 1, watchdog := m.watchdog.map (· - 1) }, none,
        [.step m.frame i], (m.worked p w m.wakeAt flow).shown i⟩
  /-- The instruction is completed and ends the run. -/
  | stop (w : Workspace δ) (wake : Option Nat) (flow : Flow) (o : Outcome) (hw : m.watchdog ≠ some 0)
      (hf : flow.outcome? = some o) (ho : o ≠ .budgetExhausted)
      (ha : wake = m.wakeAt ∨ o = .sleeping)
      (hrun : (execute p m.position now i).run m = .ok flow { m.withWorkspace w with wakeAt := wake }) :
    Attempted m p now i
      ⟨{ m.worked p w wake flow with
          frame := m.frame + 1, watchdog := m.watchdog.map (· - 1) }.settle o,
        some (.outcome o), [.step m.frame i], (m.worked p w wake flow).shown i⟩
  /-- The instruction is completed and was one too many. -/
  | bark (w : Workspace δ) (wake : Option Nat) (flow : Flow) (hw : m.watchdog = some 0)
      (hrun : (execute p m.position now i).run m = .ok flow { m.withWorkspace w with wakeAt := wake }) :
    Attempted m p now i
      ⟨{ m.worked p w wake flow with frame := m.frame + 1 }.latch (.failed .watchdogBark (locationOf i)),
        some (.fault (.failed .watchdogBark (locationOf i))),
        [.step m.frame i, .barked i.line, .halted (.failed .watchdogBark (locationOf i))],
        (m.worked p w wake flow).shown i⟩
  /-- The instruction fails. -/
  | fault (w : Workspace δ) (cause : Fault.Cause)
      (hrun : (execute p m.position now i).run m = .error (.fault cause) (m.withWorkspace w)) :
    Attempted m p now i
      ⟨(m.withWorkspace w).latch (.failed cause (locationOf i)), some (.fault (.failed cause (locationOf i))),
        [.step m.frame i, .halted (.failed cause (locationOf i))], []⟩
  /-- The run breaks down. -/
  | breakdown (w : Workspace δ)
      (hrun : (execute p m.position now i).run m = .error .emptyRange (m.withWorkspace w)) :
    Attempted m p now i ⟨m.withWorkspace w, some .breakdown, [.step m.frame i], []⟩

theorem complete_of_bark {m : Machine δ} (h : m.watchdog = some 0) (i : Instruction) (flow : Flow)
    (report : Notice) :
    m.complete i flow report =
      ⟨{ m with frame := m.frame + 1 }.latch (.failed .watchdogBark (locationOf i)),
        some (.fault (.failed .watchdogBark (locationOf i))),
        [report, .barked i.line, .halted (.failed .watchdogBark (locationOf i))], m.shown i⟩ := by
  simp only [complete, h, shown]

theorem complete_of_outcome {m : Machine δ} (h : m.watchdog ≠ some 0) (i : Instruction) {flow : Flow}
    {o : Outcome} (ho : flow.outcome? = some o) (report : Notice) :
    m.complete i flow report =
      ⟨{ m with frame := m.frame + 1, watchdog := m.watchdog.map (· - 1) }.settle o, some (.outcome o),
        [report], m.shown i⟩ := by
  rcases hw : m.watchdog with _ | _ | n
  · simp only [complete, hw, ho, shown]
  · exact absurd hw h
  · simp only [complete, hw, ho, shown]

theorem complete_of_next {m : Machine δ} (h : m.watchdog ≠ some 0) (i : Instruction) {flow : Flow}
    (ho : flow.outcome? = none) (report : Notice) :
    m.complete i flow report =
      ⟨{ m with frame := m.frame + 1, watchdog := m.watchdog.map (· - 1) }, none, [report], m.shown i⟩ := by
  rcases hw : m.watchdog with _ | _ | n
  · simp only [complete, hw, ho, shown]
  · exact absurd hw h
  · simp only [complete, hw, ho, shown]

theorem snapshots_complete (m : Machine δ) (i : Instruction) (flow : Flow) (report : Notice) :
    (m.complete i flow report).snapshots = m.shown i := by
  unfold complete
  simp only
  split
  · rfl
  · split <;> rfl

theorem workspace_complete (m : Machine δ) (i : Instruction) (flow : Flow) (report : Notice) :
    (m.complete i flow report).machine.workspace = m.workspace := by
  unfold complete
  simp only
  split
  · rfl
  · split <;> rfl

namespace Attempted

variable [Peripheral δ] {m : Machine δ} {p : Program} {now : Nat} {i : Instruction} {a : Attempt δ}

/-- Every attempt is reported once. -/
theorem attemptsIn_notices (h : Attempted m p now i a) : attemptsIn a.notices = 1 := by
  cases h <;> rfl

theorem program (h : Attempted m p now i a) : a.machine.program = m.program := by
  cases h <;> rfl

theorem slots (h : Attempted m p now i a) : a.machine.slots = m.slots := by
  cases h <;> rfl

theorem observed (h : Attempted m p now i a) : a.machine.observed = m.observed := by
  cases h <;> rfl

/-- While the run goes on, the machine counts its instructions and keeps its interlude; it has not
failed. -/
theorem continues (h : Attempted m p now i a) (he : a.ending = none) :
    a.machine.interlude = m.interlude ∧ a.machine.failure = m.failure ∧
      a.machine.frame = m.frame + 1 ∧ a.machine.observed = m.observed := by
  cases h with
  | next => exact ⟨rfl, rfl, rfl, rfl⟩
  | stop => cases he
  | bark => cases he
  | fault => cases he
  | breakdown => cases he

/-- A host that wants to see snapshots is shown one of each instruction after which the run goes on. -/
theorem length_snapshots (h : Attempted m p now i a) (he : a.ending = none) :
    a.snapshots.length = if m.observed then 1 else 0 := by
  cases h with
  | next w flow =>
    show (if m.observed then [_] else []).length = _
    cases m.observed <;> rfl
  | stop => cases he
  | bark => cases he
  | fault => cases he
  | breakdown => cases he

/-- A run that an instruction ends without a fault has an outcome of its own, which the machine notes. -/
theorem stops {o : Outcome} (h : Attempted m p now i a) (he : a.ending = some (.outcome o)) :
    o ≠ .budgetExhausted ∧ a.machine.lastOutcome = some o := by
  cases h with
  | next => cases he
  | stop _ _ _ _ _ _ ho => cases he; exact ⟨ho, rfl⟩
  | bark => cases he
  | fault => cases he
  | breakdown => cases he

/-- A run that an instruction ends with a fault which the watchdog does not raise has failed in its work. -/
theorem run_of_fault {cause : Fault.Cause} {location : Location} (h : Attempted m p now i a)
    (hc : cause ≠ .watchdogBark) (he : a.ending = some (.fault (.failed cause location))) :
    ∃ m', (execute p m.position now i).run m = .error (.fault cause) m' := by
  cases h with
  | next => cases he
  | stop => cases he
  | bark =>
    cases he
    exact absurd rfl hc
  | fault w cause hrun =>
    cases he
    exact ⟨_, hrun⟩
  | breakdown => cases he

/-- A run breaks down where the work of an instruction does. -/
theorem breakdown_iff (h : Attempted m p now i a) :
    a.ending = some .breakdown ↔ ∃ m', (execute p m.position now i).run m = .error .emptyRange m' := by
  have hne {r : EStateM.Result Trouble (Machine δ) Flow} (hrun : (execute p m.position now i).run m = r)
      (hr : ∀ m', r ≠ .error .emptyRange m') :
      ¬ ∃ m', (execute p m.position now i).run m = .error .emptyRange m' := by
    rintro ⟨m', h⟩
    exact hr m' (hrun.symm.trans h)
  cases h with
  | next w flow _ _ hrun => exact iff_of_false (fun e => by cases e) (hne hrun fun _ e => by cases e)
  | stop w wake flow o _ _ _ _ hrun => exact iff_of_false (fun e => by cases e) (hne hrun fun _ e => by cases e)
  | bark w wake flow _ hrun => exact iff_of_false (fun e => by cases e) (hne hrun fun _ e => by cases e)
  | fault w cause hrun => exact iff_of_false (fun e => by cases e) (hne hrun fun _ e => by cases e)
  | breakdown w hrun => exact iff_of_true rfl ⟨_, hrun⟩

end Attempted

/-! ## Two attempts -/

/-- Machines that are the same but for the interludes, which are as `Q` says. -/
def AlikeUpTo (Q : Interlude → Interlude → Prop) (m m' : Machine δ) : Prop :=
  ∃ n h h', Q h h' ∧ m = withInterlude n h ∧ m' = n.withInterlude h'

namespace AlikeUpTo

variable {Q : Interlude → Interlude → Prop} {m m' : Machine δ}

theorem position (h : AlikeUpTo Q m m') : m.position = m'.position := by
  obtain ⟨n, i, i', -, rfl, rfl⟩ := h
  rfl

theorem failure (h : AlikeUpTo Q m m') : m.failure = m'.failure := by
  obtain ⟨n, i, i', -, rfl, rfl⟩ := h
  rfl

end AlikeUpTo

/-- Attempts that come to the same but for the interludes. -/
structure SameAttempt (Q : Interlude → Interlude → Prop) (a a' : Attempt δ) : Prop where
  machine : AlikeUpTo Q a.machine a'.machine
  ending : a.ending = a'.ending
  notices : a.notices = a'.notices
  snapshots : a.snapshots = a'.snapshots

/-- Noting the same outcome keeps `Q`. -/
def KeptSettled (Q : Interlude → Interlude → Prop) : Prop :=
  ∀ h h' (o : Outcome), Q h h' →
    Q { h with breakpointReached := o == .breakpoint, lastOutcome := some o }
      { h' with breakpointReached := o == .breakpoint, lastOutcome := some o }

theorem AlikeUpTo.settle {Q : Interlude → Interlude → Prop} {m m' : Machine δ} (h : AlikeUpTo Q m m')
    (ht : KeptSettled Q) (o : Outcome) : AlikeUpTo Q (m.settle o) (m'.settle o) := by
  obtain ⟨n, i, i', hQ, rfl, rfl⟩ := h
  exact ⟨n, _, _, ht i i' o hQ, rfl, rfl⟩

theorem complete_same {Q : Interlude → Interlude → Prop} (ht : KeptSettled Q) (m : Machine δ)
    (i : Instruction) (flow : Flow) (report : Notice) {h h' : Interlude} (hQ : Q h h') :
    SameAttempt Q ((m.withInterlude h).complete i flow report)
      ((m.withInterlude h').complete i flow report) := by
  by_cases hw : m.watchdog = some 0
  · rw [complete_of_bark (show (m.withInterlude h).watchdog = some 0 from hw),
      complete_of_bark (show (m.withInterlude h').watchdog = some 0 from hw)]
    exact ⟨⟨{ m with frame := m.frame + 1 }.latch _, h, h', hQ, rfl, rfl⟩, rfl, rfl, rfl⟩
  have hw₁ : (m.withInterlude h).watchdog ≠ some 0 := hw
  have hw₂ : (m.withInterlude h').watchdog ≠ some 0 := hw
  cases ho : flow.outcome? with
  | none =>
    rw [complete_of_next hw₁ i ho, complete_of_next hw₂ i ho]
    exact ⟨⟨{ m with frame := m.frame + 1, watchdog := m.watchdog.map (· - 1) }, h, h', hQ, rfl, rfl⟩,
      rfl, rfl, rfl⟩
  | some o =>
    rw [complete_of_outcome hw₁ i ho, complete_of_outcome hw₂ i ho]
    exact ⟨⟨{ m with frame := m.frame + 1, watchdog := m.watchdog.map (· - 1) }, _, _, ht h h' o hQ,
      rfl, rfl⟩, rfl, rfl, rfl⟩

section Attempt

variable [Peripheral δ]

/-- The list of what an attempt can come to is complete. -/
theorem attempt_attempted (m : Machine δ) (p : Program) (now : Nat) (i : Instruction) :
    Attempted m p now i (m.attempt p now i) := by
  unfold attempt
  cases h : (execute p m.position now i).run m with
  | ok flow m₁ =>
    obtain ⟨hb, w, wake, rfl, hwake⟩ := execute_ok h
    simp only [advance_eq]
    show Attempted m p now i ((m.worked p w wake flow).complete i flow (.step m.frame i))
    by_cases hw : m.watchdog = some 0
    · rw [complete_of_bark (show (m.worked p w wake flow).watchdog = some 0 from hw)]
      exact .bark w wake flow hw h
    have hw' : (m.worked p w wake flow).watchdog ≠ some 0 := hw
    cases ho : flow.outcome? with
    | none =>
      rw [complete_of_next hw' i ho]
      obtain rfl : wake = m.wakeAt := by
        rcases hwake with rfl | rfl
        · rfl
        · cases ho
      exact .next w flow hw ho h
    | some o =>
      rw [complete_of_outcome hw' i ho]
      refine .stop w wake flow o hw ho ?_ ?_ h
      · rintro rfl
        cases flow <;> cases ho
        exact hb rfl
      · rcases hwake with rfl | rfl
        · exact .inl rfl
        · cases ho
          exact .inr rfl
  | error t m₁ =>
    obtain ⟨w, rfl⟩ := execute_error h
    cases t with
    | fault cause => exact .fault w cause h
    | emptyRange => exact .breakdown w h

/-- An attempt does to the workspace what the work of the instruction does. -/
theorem workspace_attempt (m : Machine δ) (p : Program) (now : Nat) (i : Instruction) :
    (m.attempt p now i).machine.workspace = (finalOf ((execute p m.position now i).run m)).workspace := by
  unfold attempt
  cases (execute p m.position now i).run m with
  | ok flow m₁ =>
    simp only [advance_eq]
    exact workspace_complete ..
  | error t m₁ => cases t <;> rfl

theorem attempt_changes (m : Machine δ) (p : Program) (now : Nat) (i : Instruction) :
    Workspace.Changes m.workspace (m.attempt p now i).machine.workspace := by
  rw [workspace_attempt]
  exact execute_working p m.position now i m

/-- An attempt comes to the same at two times on machines that are the same but for the interludes. -/
theorem attempt_parallel {now now' : Nat} {Q : Interlude → Interlude → Prop}
    (hs : KeptAsleep now now' Q) (ht : KeptSettled Q) {m m' : Machine δ} (hm : AlikeUpTo Q m m')
    (p : Program) (i : Instruction) :
    SameAttempt Q (m.attempt p now i) (m'.attempt p now' i) := by
  obtain ⟨n, h, h', hQ, rfl, rfl⟩ := hm
  have hr := execute_parallel hs p n.position i n h h' hQ
  unfold attempt
  simp only [show (n.withInterlude h).position = n.position from rfl,
    show (n.withInterlude h').position = n.position from rfl,
    show (n.withInterlude h).frame = n.frame from rfl, show (n.withInterlude h').frame = n.frame from rfl]
  generalize (execute p n.position now i).run (n.withInterlude h) = r at hr ⊢
  generalize (execute p n.position now' i).run (n.withInterlude h') = r' at hr ⊢
  cases hr with
  | ok flow m₁ hQ₁ =>
    simp only [advance_eq]
    exact complete_same ht { m₁ with position := flow.target m₁.position p.size } i flow _ hQ₁
  | error t m₁ hQ₁ =>
    cases t with
    | fault cause => exact ⟨⟨m₁.latch _, _, _, hQ₁, rfl, rfl⟩, rfl, rfl, rfl⟩
    | emptyRange => exact ⟨⟨m₁, _, _, hQ₁, rfl, rfl⟩, rfl, rfl, rfl⟩

end Attempt

end VirtualProcessor.Machine
