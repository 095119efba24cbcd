import VirtualProcessor.Proofs.Machine.Schedule
import VirtualProcessor.Proofs.Machine.Trouble

/-!
# The watchdog

A machine that is loaded with watchdog `w` lets `w` instructions be completed; the next one is one too many.
`completed` lists the instructions that are completed in the course of some calls, and `Watched` is the invariant:
the counter is what is left of `w`, or the last instruction was one too many and the machine has failed there.
An attempt keeps it (`attempt_watched`), hence the loop (`loop_watched`), a call (`answer_watched`) and all calls
of a host (`serve_watched`). A call that is not kept from running and comes back for more has completed an
instruction (`completedIn_ne_nil`). Together these are the bounds of `watchdog_bounds`.
-/

namespace VirtualProcessor.Machine

variable {δ : Type}

/-- The alarm of the watchdog after an instruction. -/
def barkAt (i : Instruction) : Fault := .failed .watchdogBark (locationOf i)

/-! ## Completed instructions -/

section Completed

variable [Peripheral δ]

/-- Whether the work of an instruction comes through. -/
def comesThrough (m : Machine δ) (p : Program) (now : Nat) (i : Instruction) : Bool :=
  match (execute p m.position now i).run m with
  | .ok .. => true
  | .error .. => false

/-- The instructions that the loop completes, in order. -/
def loopCompleted (p : Program) (now : Nat) : (budget : Nat) → Machine δ → List Instruction
  | 0, _ => []
  | budget + 1, m =>
    match p.instructions[m.position]? with
    | none => []
    | some i =>
      (if m.comesThrough p now i then [i] else []) ++
        if (m.attempt p now i).ending = none then loopCompleted p now budget (m.attempt p now i).machine
        else []

/-- The run with which a machine answers a call. -/
abbrev answer (m : Machine δ) (c : Call) : Run δ := m.runDuring c.start c.later c.budget

/-- The instructions that are completed in a call. -/
def completedIn (m : Machine δ) (c : Call) : List Instruction :=
  match m.program with
  | none => []
  | some p =>
    if m.failure = none ∧ m.position < p.size ∧ m.isAsleep c.start = false then
      loopCompleted p c.later c.budget m.awakened
    else []

/-- The instructions that are completed in the course of some calls. -/
def completed (m : Machine δ) : List Call → List Instruction
  | [] => []
  | c :: rest => m.completedIn c ++ (m.answer c).machine.completed rest

theorem completed_append (m : Machine δ) (s t : List Call) :
    m.completed (s ++ t) = m.completed s ++ (m.serve s).machine.completed t := by
  induction s generalizing m with
  | nil => rfl
  | cons c rest ih =>
    rw [List.cons_append, completed, ih, completed, List.append_assoc]
    rfl

/-! ## One attempt -/

theorem attempt_of_ok {m m₁ : Machine δ} {p : Program} {now : Nat} {i : Instruction} {flow : Flow}
    (h : (execute p m.position now i).run m = .ok flow m₁) :
    ∃ w wake, m.attempt p now i = (m.worked p w wake flow).complete i flow (.step m.frame i) := by
  obtain ⟨-, w, wake, rfl, -⟩ := execute_ok h
  refine ⟨w, wake, ?_⟩
  unfold attempt
  rw [h]
  simp only [advance_eq]
  rfl

/-- After an instruction that comes through the watchdog barks if its counter is used up, and counts
otherwise. -/
theorem attempt_through {m : Machine δ} {p : Program} {now : Nat} {i : Instruction}
    (h : m.comesThrough p now i = true) :
    (m.attempt p now i).machine.frame = m.frame + 1 ∧
      (m.watchdog = some 0 ∧ (m.attempt p now i).machine.failure = some (barkAt i) ∨
        m.watchdog ≠ some 0 ∧ (m.attempt p now i).machine.failure = m.failure ∧
          (m.attempt p now i).machine.watchdog = m.watchdog.map (· - 1)) := by
  unfold comesThrough at h
  cases hrun : (execute p m.position now i).run m with
  | error t m₁ =>
    rw [hrun] at h
    cases h
  | ok flow m₁ =>
    obtain ⟨w, wake, hattempt⟩ := attempt_of_ok hrun
    rw [hattempt]
    by_cases hw : m.watchdog = some 0
    · rw [complete_of_bark (show (m.worked p w wake flow).watchdog = some 0 from hw)]
      exact ⟨rfl, .inl ⟨hw, rfl⟩⟩
    have hw' : (m.worked p w wake flow).watchdog ≠ some 0 := hw
    cases ho : flow.outcome? with
    | none =>
      rw [complete_of_next hw' i ho]
      exact ⟨rfl, .inr ⟨hw, rfl, rfl⟩⟩
    | some o =>
      rw [complete_of_outcome hw' i ho]
      exact ⟨rfl, .inr ⟨hw, rfl, rfl⟩⟩

/-- An instruction that does not come through ends the run, and the watchdog takes no notice of it. -/
theorem attempt_short {m : Machine δ} {p : Program} {now : Nat} {i : Instruction}
    (h : m.comesThrough p now i = false) :
    (m.attempt p now i).machine.frame = m.frame ∧ (m.attempt p now i).machine.watchdog = m.watchdog ∧
      ((m.attempt p now i).ending = some .breakdown ∧ (m.attempt p now i).machine.failure = m.failure ∨
        ∃ cause, cause ≠ .watchdogBark ∧
          (m.attempt p now i).ending = some (.fault (.failed cause (locationOf i))) ∧
          (m.attempt p now i).machine.failure = some (.failed cause (locationOf i))) := by
  unfold comesThrough at h
  unfold attempt
  cases hrun : (execute p m.position now i).run m with
  | ok flow m₁ =>
    rw [hrun] at h
    cases h
  | error t m₁ =>
    have hquiet := execute_quiet p m.position now i m t m₁ hrun
    obtain ⟨w, rfl⟩ := execute_error hrun
    cases t with
    | fault cause => exact ⟨rfl, rfl, .inr ⟨cause, fun hc => hquiet (by rw [hc]), rfl, rfl⟩⟩
    | emptyRange => exact ⟨rfl, rfl, .inl ⟨rfl, rfl⟩⟩

end Completed

/-! ## The invariant -/

/-- What the watchdog has come to when the instructions `done` are completed: it is still watching, or the last of
them was one too many. -/
structure Watched (w : Nat) (done : List Instruction) (m : Machine δ) : Prop where
  frame : m.frame = UInt32.ofNat done.length
  counter :
    done.length ≤ w ∧ m.watchdog = some (w - done.length) ∧
        (∀ location, m.failure ≠ some (.failed .watchdogBark location)) ∨
      ∃ i, done.length = w + 1 ∧ done.getLast? = some i ∧ m.failure = some (barkAt i)

namespace Watched

variable {w : Nat} {done : List Instruction} {m : Machine δ}

theorem settle (h : Watched w done m) (o : Outcome) : Watched w done (m.settle o) := ⟨h.frame, h.counter⟩

theorem awakened (h : Watched w done m) : Watched w done m.awakened := ⟨h.frame, h.counter⟩

theorem length_le (h : Watched w done m) : done.length ≤ w + 1 := by
  obtain ⟨hd, -⟩ | ⟨i, hd, -⟩ := h.counter
  · exact Nat.le_succ_of_le hd
  · exact Nat.le_of_eq hd

/-- A machine that has not failed is still watching. -/
theorem watching (h : Watched w done m) (hf : m.failure = none) :
    done.length ≤ w ∧ m.watchdog = some (w - done.length) := by
  obtain ⟨hd, hw, -⟩ | ⟨i, -, -, hb⟩ := h.counter
  · exact ⟨hd, hw⟩
  · rw [hf] at hb
    cases hb

/-- The alarm is latched just when one instruction too many is completed, and names that instruction. -/
theorem failure_iff (h : Watched w done m) (location : Location) :
    m.failure = some (.failed .watchdogBark location) ↔
      done.length = w + 1 ∧ done.getLast?.map locationOf = some location := by
  obtain ⟨hd, -, hf⟩ | ⟨i, hd, hi, hf⟩ := h.counter
  · exact ⟨fun hb => absurd hb (hf location), fun hl => absurd hl.1 (by omega)⟩
  · rw [hf, hi]
    constructor
    · intro hb
      cases hb
      exact ⟨hd, rfl⟩
    · rintro ⟨-, hl⟩
      cases hl
      rfl

end Watched

section Runs

variable [Peripheral δ] {w : Nat} {done : List Instruction}

/-- An attempt keeps the invariant: the instruction is added if it comes through. -/
theorem attempt_watched {m : Machine δ} (h : Watched w done m) (hf : m.failure = none) (p : Program)
    (now : Nat) (i : Instruction) :
    Watched w (done ++ if m.comesThrough p now i then [i] else []) (m.attempt p now i).machine := by
  obtain ⟨hd, hw⟩ := h.watching hf
  cases hthrough : m.comesThrough p now i with
  | false =>
    obtain ⟨hframe, hwatchdog, hend⟩ := attempt_short hthrough
    rw [if_neg Bool.false_ne_true, List.append_nil]
    refine ⟨hframe.trans h.frame, .inl ⟨hd, hwatchdog.trans hw, fun location => ?_⟩⟩
    obtain ⟨-, hfail⟩ | ⟨cause, hcause, -, hfail⟩ := hend
    · rw [hfail, hf]
      intro hb
      cases hb
    · rw [hfail]
      intro hb
      cases hb
      exact hcause rfl
  | true =>
    obtain ⟨hframe, hend⟩ := attempt_through hthrough
    rw [if_pos rfl]
    have hlength : (done ++ [i]).length = done.length + 1 := by
      rw [List.length_append, List.length_singleton]
    have hcount : (m.attempt p now i).machine.frame = UInt32.ofNat (done ++ [i]).length := by
      rw [hframe, h.frame, hlength, UInt32.ofNat_add]
      rfl
    refine ⟨hcount, ?_⟩
    rw [hlength]
    obtain ⟨hzero, hfail⟩ | ⟨hpos, hfail, hwatchdog⟩ := hend
    · have hleft : w - done.length = 0 := Option.some.inj (hw.symm.trans hzero)
      exact .inr ⟨i, by omega, List.getLast?_concat, hfail⟩
    · have hleft : w - done.length ≠ 0 := fun hz => hpos (by rw [hw, hz])
      refine .inl ⟨by omega, ?_, fun location => ?_⟩
      · rw [hwatchdog, hw, Option.map_some]
        congr 1
      · rw [hfail, hf]
        intro hb
        cases hb

/-- The loop keeps the invariant, by induction on its budget. -/
theorem loop_watched {m : Machine δ} (h : Watched w done m) (hf : m.failure = none) (p : Program)
    (now budget : Nat) (ns : List Notice) (ss : List Snapshot) :
    Watched w (done ++ loopCompleted p now budget m) (loop p now budget m ns ss).machine := by
  induction budget generalizing m done ns ss with
  | zero =>
    rw [loopCompleted, List.append_nil]
    exact h.settle _
  | succ budget ih =>
    unfold loop loopCompleted
    cases p.instructions[m.position]? with
    | none =>
      simp only [List.append_nil]
      exact h.settle _
    | some i =>
      have ha := attempt_watched h hf p now i
      simp only
      cases hend : (m.attempt p now i).ending with
      | some ending =>
        rw [if_neg (Option.some_ne_none ending), List.append_nil]
        exact ha
      | none =>
        obtain ⟨-, hf', -⟩ := (attempt_attempted m p now i).continues hend
        rw [if_pos rfl, ← List.append_assoc]
        exact ih ha (hf'.trans hf) _ _

theorem completedIn_awake {m : Machine δ} {p : Program} {c : Call} (hp : m.program = some p)
    (h : m.failure = none ∧ m.position < p.size ∧ m.isAsleep c.start = false) :
    m.completedIn c = loopCompleted p c.later c.budget m.awakened := by
  simp only [completedIn, hp]
  exact if_pos h

theorem completedIn_idle {m : Machine δ} {p : Program} {c : Call} (hp : m.program = some p)
    (h : ¬ (m.failure = none ∧ m.position < p.size ∧ m.isAsleep c.start = false)) :
    m.completedIn c = [] := by
  simp only [completedIn, hp]
  exact if_neg h

/-- A call keeps the invariant. -/
theorem answer_watched {m : Machine δ} {p : Program} (h : Watched w done m) (hp : m.program = some p)
    (c : Call) : Watched w (done ++ m.completedIn c) (m.answer c).machine := by
  by_cases hawake : m.failure = none ∧ m.position < p.size ∧ m.isAsleep c.start = false
  · rw [completedIn_awake hp hawake, answer,
      runDuring_awake hp hawake.1 (Nat.not_le.mpr hawake.2.1) hawake.2.2]
    exact loop_watched h.awakened hawake.1 p c.later c.budget [] []
  · rw [completedIn_idle hp hawake, List.append_nil, answer]
    obtain ⟨r, hidle, hr⟩ | ⟨hf, hpos, ha⟩ := idle_or_awake hp c.start c.later
    · rw [hr]
      exact hidle.keeps h h.settle
    · exact absurd ⟨hf, Nat.not_le.mp hpos, ha⟩ hawake

theorem serve_watched {m : Machine δ} {p : Program} (h : Watched w done m) (hp : m.program = some p)
    (s : List Call) : Watched w (done ++ m.completed s) (m.serve s).machine := by
  induction s generalizing m done with
  | nil =>
    rw [completed, List.append_nil]
    exact h
  | cons c rest ih =>
    have hprogram := (runDuring_paces hp c.start c.later c.budget).program
    rw [completed, ← List.append_assoc]
    exact ih (answer_watched h hp c) (hprogram.trans hp)

/-! ## What a call comes back with -/

omit [Peripheral δ] in
/-- A machine that has not failed has no fault to come back with. -/
theorem outcome_fault_iff {m : Machine δ} (hf : m.failure = none) (o : Outcome) (f : Fault) :
    Ending.outcome o = .fault f ↔ m.failure = some f := by
  rw [hf]
  constructor
  · intro e
    cases e
  · intro e
    cases e

theorem Attempted.fault_iff {m : Machine δ} {p : Program} {now : Nat} {i : Instruction} {a : Attempt δ}
    (h : Attempted m p now i a) (hf : m.failure = none) (f : Fault) :
    a.ending = some (.fault f) ↔ a.machine.failure = some f := by
  have hnone : m.failure ≠ some f := fun e => Option.some_ne_none f (e.symm.trans hf)
  cases h with
  | next => exact iff_of_false (fun e => by cases e) hnone
  | stop => exact iff_of_false (fun e => by cases e) hnone
  | bark => exact ⟨fun e => by cases e; rfl, fun e => by cases e; rfl⟩
  | fault => exact ⟨fun e => by cases e; rfl, fun e => by cases e; rfl⟩
  | breakdown => exact iff_of_false (fun e => by cases e) hnone

/-- The loop ends with a fault just when it leaves the fault in the machine. -/
theorem loop_fault_iff {m : Machine δ} (hf : m.failure = none) (p : Program) (now budget : Nat)
    (ns : List Notice) (ss : List Snapshot) (f : Fault) :
    (loop p now budget m ns ss).ending = .fault f ↔
      (loop p now budget m ns ss).machine.failure = some f := by
  induction budget generalizing m ns ss with
  | zero => exact outcome_fault_iff hf _ f
  | succ budget ih =>
    unfold loop
    cases p.instructions[m.position]? with
    | none => exact outcome_fault_iff hf _ f
    | some i =>
      have ha := attempt_attempted m p now i
      have hiff := ha.fault_iff hf f
      simp only
      cases hend : (m.attempt p now i).ending with
      | some ending =>
        rw [hend, Option.some.injEq] at hiff
        exact hiff
      | none =>
        obtain ⟨-, hf', -⟩ := ha.continues hend
        exact ih (hf'.trans hf) _ _

/-- A call comes back with a fault just when the machine has failed with it. -/
theorem answer_fault_iff {m : Machine δ} {p : Program} (hp : m.program = some p) (c : Call) (f : Fault) :
    (m.answer c).ending = .fault f ↔ (m.answer c).machine.failure = some f := by
  unfold answer
  cases hf : m.failure with
  | some fault =>
    rw [runDuring_failed hp hf]
    show Ending.fault fault = .fault f ↔ m.failure = some f
    rw [hf, Option.some.injEq, Ending.fault.injEq]
  | none =>
    by_cases he : p.size ≤ m.position
    · rw [runDuring_atEnd hp hf he]
      exact outcome_fault_iff hf _ f
    cases ha : m.isAsleep c.start with
    | true =>
      rw [runDuring_asleep hp hf he ha]
      exact outcome_fault_iff hf _ f
    | false =>
      rw [runDuring_awake hp hf he ha]
      exact loop_fault_iff (m := m.awakened) hf p c.later c.budget [] [] f

/-- A loop that has something to do and comes back with an outcome has completed an instruction. -/
theorem loopCompleted_ne_nil {m : Machine δ} {p : Program} {now budget : Nat} {ns : List Notice}
    {ss : List Snapshot} {o : Outcome} (hb : 0 < budget) (hpos : m.position < p.size)
    (h : (loop p now budget m ns ss).ending = .outcome o) : loopCompleted p now budget m ≠ [] := by
  obtain ⟨budget, rfl⟩ : ∃ b, budget = b + 1 := ⟨budget - 1, by omega⟩
  have hi : p.instructions[m.position]? = some p.instructions[m.position] := Array.getElem?_eq_getElem hpos
  unfold loop at h
  unfold loopCompleted
  simp only [hi] at h ⊢
  cases hthrough : m.comesThrough p now p.instructions[m.position] with
  | true => simp
  | false =>
    obtain ⟨-, -, ⟨hend, -⟩ | ⟨cause, -, hend, -⟩⟩ := attempt_short hthrough
    · rw [hend] at h
      cases h
    · rw [hend] at h
      cases h

/-- Whether nothing comes after a call that has ended so: the program is done, it has failed, or the machine is
lost. -/
def Ending.isFinal : Ending → Bool
  | .outcome o => o == .finished
  | .fault _ => true
  | .breakdown => true

/-- A call with a budget that no sleep keeps from running and that is not the last has completed an
instruction. -/
theorem completedIn_ne_nil {m : Machine δ} {p : Program} {c : Call} (hp : m.program = some p)
    (hb : 0 < c.budget) (ha : m.isAsleep c.start = false) (h : (m.answer c).ending.isFinal = false) :
    m.completedIn c ≠ [] := by
  unfold answer at h
  cases hf : m.failure with
  | some fault =>
    rw [runDuring_failed hp hf] at h
    cases h
  | none =>
    by_cases he : p.size ≤ m.position
    · rw [runDuring_atEnd hp hf he] at h
      cases h
    rw [runDuring_awake hp hf he ha] at h
    rw [completedIn_awake hp ⟨hf, Nat.not_le.mp he, ha⟩]
    cases hend : (loop p c.later c.budget m.awakened [] []).ending with
    | outcome o => exact loopCompleted_ne_nil (m := m.awakened) hb (Nat.not_le.mp he) hend
    | fault f =>
      rw [hend] at h
      cases h
    | breakdown =>
      rw [hend] at h
      cases h

/-! ## The bounds -/

/-- How many of the calls have a budget and are not kept from running by a pending sleep. -/
def unblocked (m : Machine δ) : List Call → Nat
  | [] => 0
  | c :: rest =>
    (if 0 < c.budget ∧ m.isAsleep c.start = false then 1 else 0) + (m.answer c).machine.unblocked rest

/-- While no call is the last, each one that is not kept from running completes an instruction. -/
theorem unblocked_le {m : Machine δ} {p : Program} (hp : m.program = some p) {s : List Call}
    (h : ∀ t c u, s = t ++ c :: u → ((m.serve t).machine.answer c).ending.isFinal = false) :
    m.unblocked s ≤ (m.completed s).length := by
  induction s generalizing m with
  | nil => exact Nat.le_refl 0
  | cons c rest ih =>
    have hprogram := (runDuring_paces hp c.start c.later c.budget).program
    have hrest := ih (hprogram.trans hp) fun t d u e => h (c :: t) d u (by rw [e]; rfl)
    rw [unblocked, completed, List.length_append]
    refine Nat.add_le_add ?_ hrest
    split
    · rename_i hc
      exact List.length_pos_iff.mpr (completedIn_ne_nil hp hc.1 hc.2 (h [] c rest rfl))
    · exact Nat.zero_le _

/-- A host that goes on calling comes to a last call: after `w` instructions the next one is one too many. -/
theorem exists_isFinal {m : Machine δ} {p : Program} (h : Watched w [] m) (hp : m.program = some p)
    {s : List Call} (hs : w < m.unblocked s) :
    ∃ t c u, s = t ++ c :: u ∧ ((m.serve t).machine.answer c).ending.isFinal = true := by
  refine Classical.byContradiction fun hnone => ?_
  have hle : m.unblocked s ≤ (m.completed s).length :=
    unblocked_le hp fun t c u e => Bool.eq_false_iff.mpr fun hfinal => hnone ⟨t, c, u, e, hfinal⟩
  obtain ⟨hcount, -⟩ | ⟨i, hcount, -, hfail⟩ := (serve_watched h hp s).counter
  · rw [List.nil_append] at hcount
    omega
  -- the alarm is latched, so that the last of the calls has come back with it
  obtain rfl | ⟨t, c, rfl⟩ := List.eq_nil_or_concat s
  · cases hcount
  · rw [List.concat_eq_append, serve_append] at hfail
    have hprogram := (serve_paces hp t).program.trans hp
    have hend := (answer_fault_iff hprogram c (barkAt i)).mpr hfail
    exact hnone ⟨t, c, [], List.concat_eq_append, by rw [hend]; rfl⟩

/-- A call during a pending sleep completes nothing and costs nothing. -/
theorem answer_asleep {m : Machine δ} {p : Program} {c : Call} (hp : m.program = some p)
    (ha : m.isAsleep c.start = true) :
    m.completedIn c = [] ∧ (m.answer c).machine.watchdog = m.watchdog := by
  have hidle : ¬ (m.failure = none ∧ m.position < p.size ∧ m.isAsleep c.start = false) :=
    fun h => Bool.false_ne_true (h.2.2.symm.trans ha)
  refine ⟨completedIn_idle hp hidle, ?_⟩
  unfold answer
  obtain ⟨r, hr, he⟩ | ⟨-, -, hawake⟩ := idle_or_awake hp c.start c.later
  · rw [he]
    exact hr.keeps (P := fun n => n.watchdog = m.watchdog) rfl fun _ => rfl
  · exact absurd (hawake.symm.trans ha) Bool.false_ne_true

omit [Peripheral δ] in
/-- A machine that is too small for a program says so and nothing else. -/
theorem eq_shortage {c : Capacities} {r : Requirements} {f : Fault} (h : shortage? c r = some f) :
    ∃ resource, f = .shortage resource (r.get resource).toNat (c.available resource) := by
  obtain ⟨resource, -, hr⟩ := List.exists_of_findSome?_eq_some h
  refine ⟨resource, ?_⟩
  split at hr
  · exact (Option.some.inj hr).symm
  · cases hr

omit [Peripheral δ] in
theorem load_watched (m : Machine δ) (p : Program) (w : Nat) (unplug : Bool) :
    (m.load p { watchdog := some w, unplugDevices := unplug }).1.program = some p ∧
      Watched w [] (m.load p { watchdog := some w, unplugDevices := unplug }).1 := by
  unfold load
  simp only
  split
  · rename_i fault hshort
    obtain ⟨resource, rfl⟩ := eq_shortage hshort
    exact ⟨rfl, rfl, .inl ⟨Nat.zero_le w, rfl, fun _ hb => by cases hb⟩⟩
  · exact ⟨rfl, rfl, .inl ⟨Nat.zero_le w, rfl, fun _ hb => by cases hb⟩⟩

/-- A program is loaded with watchdog `w`, and a host makes calls of any budgets at any times. At most `w + 1`
instructions are completed, and the machine counts them. A call comes back with the alarm just when the last of
`w + 1` completed instructions is done, and the alarm names it; a call during a pending sleep costs nothing; and
of more than `w` calls that have a budget and no sleep to wait for, one has been the last. -/
theorem watchdog_bounds (m : Machine δ) (p : Program) (w : Nat) (unplug : Bool) (s : List Call) :
    let start := (m.load p { watchdog := some w, unplugDevices := unplug }).1
    let reached := (start.serve s).machine
    (start.completed s).length ≤ w + 1 ∧
      reached.frame = UInt32.ofNat (start.completed s).length ∧
      (∀ (c : Call) (location : Location),
        (reached.answer c).ending = .fault (.failed .watchdogBark location) ↔
          (start.completed (s ++ [c])).length = w + 1 ∧
            (start.completed (s ++ [c])).getLast?.map locationOf = some location) ∧
      (∀ c : Call, reached.isAsleep c.start = true →
        start.completed (s ++ [c]) = start.completed s ∧
          (reached.answer c).machine.watchdog = reached.watchdog) ∧
      (w < start.unblocked s →
        ∃ t c u, s = t ++ c :: u ∧ ((start.serve t).machine.answer c).ending.isFinal = true) := by
  intro start reached
  obtain ⟨hp, hload⟩ := load_watched m p w unplug
  have hwatched (t : List Call) : Watched w (start.completed t) (start.serve t).machine :=
    serve_watched hload hp t
  have hprogram : reached.program = some p := (serve_paces hp s).program.trans hp
  refine ⟨(hwatched s).length_le, (hwatched s).frame, fun c location => ?_, fun c ha => ?_,
    exists_isFinal hload hp⟩
  · have hnext : (start.serve (s ++ [c])).machine = (reached.answer c).machine := by
      rw [serve_append]
      rfl
    rw [answer_fault_iff hprogram, ← hnext]
    exact (hwatched (s ++ [c])).failure_iff location
  · obtain ⟨hnothing, hwatchdog⟩ := answer_asleep hprogram ha
    refine ⟨?_, hwatchdog⟩
    rw [completed_append]
    show start.completed s ++ (reached.completedIn c ++ []) = _
    rw [hnothing, List.append_nil, List.append_nil]

end Runs

/-- With watchdog 2 the third instruction is one too many: the program yields and sleeps, a call that comes too
early costs nothing, and the instruction after the sleep sets off the alarm. -/
theorem watchdog_bounds_pausing :
    let start := ((new ⟨1, 1, 1, 1⟩ 7 {} : Machine Device).load pausing
      { watchdog := some 2, unplugDevices := false }).1
    let s : List Call := [⟨0, 0, 9⟩, ⟨0, 0, 9⟩]
    let early : Call := ⟨1, 1, 9⟩
    let last : Call := ⟨5000000, 5000000, 9⟩
    (start.serve s).machine.isAsleep early.start = true ∧
      start.completed (s ++ [early]) = start.completed s ∧
      ((start.serve s).machine.answer last).ending = .fault (.failed .watchdogBark ⟨3, ""⟩) ∧
      start.unblocked (s ++ [last]) = 3 ∧
      ∃ t c u, s ++ [last] = t ++ c :: u ∧ ((start.serve t).machine.answer c).ending.isFinal = true := by
  intro start s early last
  have hasleep : (start.serve s).machine.isAsleep early.start = true := by decide +kernel
  have hlast : (start.completed (s ++ [last])).length = 2 + 1 ∧
      (start.completed (s ++ [last])).getLast?.map locationOf = some ⟨3, ""⟩ := by decide +kernel
  have hcalls : start.unblocked (s ++ [last]) = 3 := by decide +kernel
  obtain ⟨-, -, hbark, hpending, -⟩ :=
    watchdog_bounds (new ⟨1, 1, 1, 1⟩ 7 {} : Machine Device) pausing 2 false s
  obtain ⟨-, -, -, -, hfinal⟩ :=
    watchdog_bounds (new ⟨1, 1, 1, 1⟩ 7 {} : Machine Device) pausing 2 false (s ++ [last])
  exact ⟨hasleep, (hpending early hasleep).1, (hbark last _).mpr hlast, hcalls,
    hfinal (Nat.lt_of_lt_of_eq (by decide) hcalls.symm)⟩

end VirtualProcessor.Machine
