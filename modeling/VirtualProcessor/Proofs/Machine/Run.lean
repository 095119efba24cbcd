import VirtualProcessor.Proofs.Machine.Attempt

/-!
# Single runs

The ways a run can go, as equations: it is refused (`runDuring_failed`), it finds the program at its end or
asleep, or it enters the loop (`runDuring_awake`). In all but the last it is `Idle`, whatever its budget
(`idle_or_awake`). The loop carries what was reported and shown along (`loop_eq`), does not look at the
interlude (`loop_parallel`), and notes the outcome it ends with (`loop_lastOutcome`).
-/

namespace VirtualProcessor.Machine

variable {δ : Type}

/-- The machine with which the loop starts: no sleep is pending and no breakpoint is reached. -/
def awakened (m : Machine δ) : Machine δ := { m with wakeAt := none, breakpointReached := false }

section Run

variable [Peripheral δ]

/-! ## The ways of a run -/

theorem runDuring_unloaded {m : Machine δ} (hp : m.program = none) (start later budget : Nat) :
    m.runDuring start later budget = ⟨m.latch .notLoaded, .fault .notLoaded, [.halted .notLoaded], []⟩ := by
  simp only [runDuring, hp]

theorem runDuring_failed {m : Machine δ} {p : Program} {fault : Fault} (hp : m.program = some p)
    (hf : m.failure = some fault) (start later budget : Nat) :
    m.runDuring start later budget = ⟨m, .fault fault, [], []⟩ := by
  simp only [runDuring, hp, hf]

theorem runDuring_atEnd {m : Machine δ} {p : Program} (hp : m.program = some p) (hf : m.failure = none)
    (he : p.size ≤ m.position) (start later budget : Nat) :
    m.runDuring start later budget = ⟨m.settle .finished, .outcome .finished, [], []⟩ := by
  unfold runDuring
  rw [hp, hf]
  exact if_pos he

theorem runDuring_asleep {m : Machine δ} {p : Program} (hp : m.program = some p) (hf : m.failure = none)
    (he : ¬ p.size ≤ m.position) {start : Nat} (ha : m.isAsleep start = true) (later budget : Nat) :
    m.runDuring start later budget = ⟨m.settle .sleeping, .outcome .sleeping, [], []⟩ := by
  unfold runDuring
  rw [hp, hf]
  exact (if_neg he).trans (if_pos ha)

theorem runDuring_awake {m : Machine δ} {p : Program} (hp : m.program = some p) (hf : m.failure = none)
    (he : ¬ p.size ≤ m.position) {start : Nat} (ha : m.isAsleep start = false) (later budget : Nat) :
    m.runDuring start later budget = loop p later budget m.awakened [] [] := by
  unfold runDuring awakened
  rw [hp, hf]
  exact (if_neg he).trans (if_neg (ne_true_of_eq_false ha))

/-- A run that attempts nothing and changes nothing but the outcome noted. -/
structure Idle (m : Machine δ) (r : Run δ) : Prop where
  machine : r.machine = m ∨ ∃ o, r.machine = m.settle o
  ending : r.ending ≠ .outcome .budgetExhausted
  notices : r.notices = []
  snapshots : r.snapshots = []

omit [Peripheral δ] in
/-- What holds of a machine, whatever outcome it notes, holds of it after an idle run. -/
theorem Idle.keeps {m : Machine δ} {r : Run δ} (h : Idle m r) {P : Machine δ → Prop} (hm : P m)
    (hs : ∀ o, P (m.settle o)) : P r.machine := by
  obtain e | ⟨o, e⟩ := h.machine
  · rw [e]
    exact hm
  · rw [e]
    exact hs o

/-- A loaded machine stays idle whatever the budget, or nothing keeps its program from going on. -/
theorem idle_or_awake {m : Machine δ} {p : Program} (hp : m.program = some p) (start later : Nat) :
    (∃ r, Idle m r ∧ ∀ budget, m.runDuring start later budget = r) ∨
      m.failure = none ∧ ¬ p.size ≤ m.position ∧ m.isAsleep start = false := by
  cases hf : m.failure with
  | some fault =>
    refine .inl ⟨_, ?_, runDuring_failed hp hf start later⟩
    exact ⟨.inl rfl, nofun, rfl, rfl⟩
  | none =>
    by_cases he : p.size ≤ m.position
    · refine .inl ⟨_, ?_, runDuring_atEnd hp hf he start later⟩
      exact ⟨.inr ⟨_, rfl⟩, nofun, rfl, rfl⟩
    cases ha : m.isAsleep start with
    | true =>
      refine .inl ⟨_, ?_, runDuring_asleep hp hf he ha later⟩
      exact ⟨.inr ⟨_, rfl⟩, nofun, rfl, rfl⟩
    | false => exact .inr ⟨rfl, he, rfl⟩

/-! ## The loop -/

/-- What was reported and shown before the loop stands in front of what it reports and shows. -/
theorem loop_eq (p : Program) (now budget : Nat) (m : Machine δ) (ns : List Notice) (ss : List Snapshot) :
    loop p now budget m ns ss =
      ⟨(loop p now budget m [] []).machine, (loop p now budget m [] []).ending,
        ns.reverse ++ (loop p now budget m [] []).notices,
        ss.reverse ++ (loop p now budget m [] []).snapshots⟩ := by
  induction budget generalizing m ns ss with
  | zero => simp only [loop, List.reverse_nil, List.append_nil]
  | succ budget ih =>
    unfold loop
    cases p.instructions[m.position]? with
    | none => simp only [List.reverse_nil, List.append_nil]
    | some i =>
      simp only
      cases (m.attempt p now i).ending with
      | some ending => simp only [List.reverse_append, List.reverse_reverse, List.reverse_nil, List.nil_append]
      | none =>
        simp only
        rw [ih _ ((m.attempt p now i).notices.reverse ++ ns),
          ih _ ((m.attempt p now i).notices.reverse ++ [])]
        simp only [List.reverse_append, List.reverse_reverse, List.reverse_nil, List.nil_append,
          List.append_assoc]

/-- Runs that come to the same but for the interludes. -/
structure SameRun (Q : Interlude → Interlude → Prop) (r r' : Run δ) : Prop where
  machine : AlikeUpTo Q r.machine r'.machine
  ending : r.ending = r'.ending
  notices : r.notices = r'.notices
  snapshots : r.snapshots = r'.snapshots

/-- The loop does the same on machines that are the same but for the interludes. -/
theorem loop_parallel {now : Nat} {Q : Interlude → Interlude → Prop} (hs : KeptAsleep now now Q)
    (ht : KeptSettled Q) (p : Program) (budget : Nat) {m m' : Machine δ} (hm : AlikeUpTo Q m m')
    (ns : List Notice) (ss : List Snapshot) :
    SameRun Q (loop p now budget m ns ss) (loop p now budget m' ns ss) := by
  induction budget generalizing m m' ns ss with
  | zero =>
    simp only [loop, hm.position]
    exact ⟨hm.settle ht _, rfl, rfl, rfl⟩
  | succ budget ih =>
    unfold loop
    rw [hm.position]
    cases p.instructions[m'.position]? with
    | none => exact ⟨hm.settle ht _, rfl, rfl, rfl⟩
    | some i =>
      have ha := attempt_parallel hs ht hm p i
      simp only [ha.ending, ha.notices, ha.snapshots]
      cases (m'.attempt p now i).ending with
      | some ending => exact ⟨ha.machine, rfl, rfl, rfl⟩
      | none => exact ih ha.machine _ _

/-- The outcome of the loop is noted in the machine. -/
theorem loop_lastOutcome {p : Program} {now budget : Nat} {m : Machine δ} {ns : List Notice}
    {ss : List Snapshot} {o : Outcome} (h : (loop p now budget m ns ss).ending = .outcome o) :
    (loop p now budget m ns ss).machine.lastOutcome = some o := by
  induction budget generalizing m ns ss with
  | zero =>
    cases h
    rfl
  | succ budget ih =>
    unfold loop at h ⊢
    cases hi : p.instructions[m.position]? with
    | none =>
      rw [hi] at h
      cases h
      rfl
    | some i =>
      simp only [hi] at h ⊢
      cases he : (m.attempt p now i).ending with
      | some ending =>
        simp only [he] at h ⊢
        exact ((attempt_attempted m p now i).stops (he.trans (congrArg some h))).2
      | none =>
        simp only [he] at h ⊢
        exact ih h

/-- The loop attempts no more instructions than its budget allows. -/
theorem attemptsIn_loop_le (p : Program) (now budget : Nat) (m : Machine δ) (ns : List Notice)
    (ss : List Snapshot) : attemptsIn (loop p now budget m ns ss).notices ≤ attemptsIn ns + budget := by
  induction budget generalizing m ns ss with
  | zero => exact Nat.le_of_eq (attemptsIn_reverse ns)
  | succ budget ih =>
    unfold loop
    cases p.instructions[m.position]? with
    | none => exact Nat.le_trans (Nat.le_of_eq (attemptsIn_reverse ns)) (Nat.le_add_right _ _)
    | some i =>
      have ha := (attempt_attempted m p now i).attemptsIn_notices
      simp only
      cases (m.attempt p now i).ending with
      | some ending =>
        simp only [attemptsIn_reverse, attemptsIn_append, ha]
        omega
      | none =>
        have := ih (m.attempt p now i).machine ((m.attempt p now i).notices.reverse ++ ns)
          ((m.attempt p now i).snapshots.reverse ++ ss)
        rw [attemptsIn_append, attemptsIn_reverse, ha] at this
        simp only
        omega

end Run

end VirtualProcessor.Machine
