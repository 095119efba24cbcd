import VirtualProcessor.Device
import VirtualProcessor.Proofs.Machine.Run

/-!
# The schedule of the host does not matter

A host has a program run in pieces: it chooses the budgets and the times of its calls (`Call`, `serve`).
Beside it stands a machine that is left alone: `pace` makes a number of attempts one after the other and
knows neither budgets nor times nor stops. However a host divides its calls, it ends where as many attempts
lead (`serve_paces`), so that two hosts that have come to the same number of attempts find the same machine
and have been shown the same (`serve_agree`).
-/

namespace VirtualProcessor.Machine

variable {δ : Type}

/-! ## Machines that are alike -/

/-- Machines that are the same but for the interludes. -/
abbrev Alike (m m' : Machine δ) : Prop := AlikeUpTo (fun _ _ => True) m m'

theorem Alike.refl (m : Machine δ) : Alike m m := ⟨m, m.interlude, m.interlude, trivial, rfl, rfl⟩

theorem Alike.symm {m m' : Machine δ} (h : Alike m m') : Alike m' m := by
  obtain ⟨n, i, i', -, rfl, rfl⟩ := h
  exact ⟨n, i', i, trivial, rfl, rfl⟩

theorem Alike.trans {m₁ m₂ m₃ : Machine δ} (h : Alike m₁ m₂) (h' : Alike m₂ m₃) : Alike m₁ m₃ := by
  obtain ⟨n, i, i', -, rfl, rfl⟩ := h
  obtain ⟨n', j, j', -, e, rfl⟩ := h'
  refine ⟨n, i, j', trivial, rfl, ?_⟩
  calc n'.withInterlude j' = (n'.withInterlude j).withInterlude j' := rfl
    _ = (n.withInterlude i').withInterlude j' := by rw [e]
    _ = n.withInterlude j' := rfl

theorem Alike.settle (m : Machine δ) (o : Outcome) : Alike (m.settle o) m :=
  ⟨m, (m.settle o).interlude, m.interlude, trivial, rfl, rfl⟩

theorem Alike.awakened (m : Machine δ) : Alike m.awakened m :=
  ⟨m, ⟨none, false, m.lastOutcome⟩, m.interlude, trivial, rfl, rfl⟩

/-! ## Attempts without a host -/

section Pace

variable [Peripheral δ]

/-- The attempt that comes next, unless the machine has failed or is at the end of the program. -/
def stride? (p : Program) (m : Machine δ) : Option (Attempt δ) :=
  match m.failure with
  | some _ => none
  | none => p.instructions[m.position]?.map (m.attempt p 0)

/-- The machine after `count` attempts, or as many as there are, and what was shown of them. -/
def pace (p : Program) : (count : Nat) → Machine δ → Machine δ × List Snapshot
  | 0, m => (m, [])
  | count + 1, m =>
    match stride? p m with
    | none => (m, [])
    | some a => ((pace p count a.machine).1, a.snapshots ++ (pace p count a.machine).2)

theorem stride?_eq_some {p : Program} {m : Machine δ} {i : Instruction} (hf : m.failure = none)
    (hi : p.instructions[m.position]? = some i) : stride? p m = some (m.attempt p 0 i) := by
  simp only [stride?, hf, hi, Option.map_some]

theorem pace_of_none {p : Program} {m : Machine δ} (h : stride? p m = none) (count : Nat) :
    pace p count m = (m, []) := by
  cases count with
  | zero => rfl
  | succ count => rw [pace, h]

theorem pace_of_some {p : Program} {m : Machine δ} {a : Attempt δ} (h : stride? p m = some a)
    (count : Nat) :
    pace p (count + 1) m = ((pace p count a.machine).1, a.snapshots ++ (pace p count a.machine).2) := by
  rw [pace, h]

theorem pace_add (p : Program) (a b : Nat) (m : Machine δ) :
    pace p (a + b) m =
      ((pace p b (pace p a m).1).1, (pace p a m).2 ++ (pace p b (pace p a m).1).2) := by
  induction a generalizing m with
  | zero => rw [Nat.zero_add]; rfl
  | succ a ih =>
    rw [Nat.succ_add]
    cases h : stride? p m with
    | none => simp only [pace_of_none h, List.append_nil]
    | some s => simp only [pace_of_some h, ih, List.append_assoc]

/-- Alike machines attempt the same, whatever the time. -/
theorem attempt_alike {m m' : Machine δ} (h : Alike m m') (p : Program) (now now' : Nat)
    (i : Instruction) :
    SameAttempt (fun _ _ => True) (m.attempt p now i) (m'.attempt p now' i) :=
  attempt_parallel (fun _ _ _ _ => trivial) (fun _ _ _ _ => trivial) h p i

theorem stride?_alike {m m' : Machine δ} (h : Alike m m') (p : Program) :
    stride? p m = none ∧ stride? p m' = none ∨
      ∃ a a', stride? p m = some a ∧ stride? p m' = some a' ∧ SameAttempt (fun _ _ => True) a a' := by
  unfold stride?
  rw [h.failure, h.position]
  cases m'.failure with
  | some fault => exact .inl ⟨rfl, rfl⟩
  | none =>
    cases p.instructions[m'.position]? with
    | none => exact .inl ⟨rfl, rfl⟩
    | some i => exact .inr ⟨_, _, rfl, rfl, attempt_alike h p 0 0 i⟩

theorem pace_alike (p : Program) (count : Nat) {m m' : Machine δ} (h : Alike m m') :
    Alike (pace p count m).1 (pace p count m').1 ∧ (pace p count m).2 = (pace p count m').2 := by
  induction count generalizing m m' with
  | zero => exact ⟨h, rfl⟩
  | succ count ih =>
    obtain ⟨e, e'⟩ | ⟨a, a', e, e', hs⟩ := stride?_alike h p
    · rw [pace_of_none e, pace_of_none e']
      exact ⟨h, rfl⟩
    · obtain ⟨hm, hr⟩ := ih hs.machine
      rw [pace_of_some e, pace_of_some e']
      exact ⟨hm, by rw [hs.snapshots, hr]⟩

/-! ## Runs -/

/-- What a run comes to is what `count` attempts come to. -/
structure Paces (p : Program) (m : Machine δ) (count : Nat) (final : Machine δ)
    (snapshots : List Snapshot) : Prop where
  alike : Alike final (pace p count m).1
  snapshots : snapshots = (pace p count m).2
  program : final.program = m.program

/-- A run of the loop comes to as many attempts as it reports. -/
theorem loop_paces (p : Program) (now budget : Nat) (m : Machine δ) (ns : List Notice)
    (ss : List Snapshot) (hf : m.failure = none) :
    ∃ count, attemptsIn (loop p now budget m ns ss).notices = attemptsIn ns + count ∧
      ∃ shown, (loop p now budget m ns ss).snapshots = ss.reverse ++ shown ∧
        Paces p m count (loop p now budget m ns ss).machine shown := by
  induction budget generalizing m ns ss with
  | zero =>
    refine ⟨0, attemptsIn_reverse ns, [], (List.append_nil _).symm, ?_, rfl, rfl⟩
    exact Alike.settle m _
  | succ budget ih =>
    unfold loop
    cases hi : p.instructions[m.position]? with
    | none =>
      refine ⟨0, attemptsIn_reverse ns, [], (List.append_nil _).symm, ?_, rfl, rfl⟩
      exact Alike.settle m _
    | some i =>
      have ha := attempt_attempted m p now i
      have hs := attempt_alike (Alike.refl m) p now 0 i
      have e := pace_of_some (stride?_eq_some hf hi)
      simp only
      cases hend : (m.attempt p now i).ending with
      | some ending =>
        refine ⟨1, ?_, (m.attempt p now i).snapshots, ?_, ?_, ?_, ha.program⟩
        · simp only [attemptsIn_reverse, attemptsIn_append, ha.attemptsIn_notices, Nat.add_comm]
        · simp only [List.reverse_append, List.reverse_reverse]
        · rw [e]
          exact hs.machine
        · rw [e, hs.snapshots]
          exact (List.append_nil _).symm
      | none =>
        obtain ⟨-, hf', -⟩ := ha.continues hend
        obtain ⟨count, hn, shown, hsn, hp⟩ :=
          ih (m.attempt p now i).machine ((m.attempt p now i).notices.reverse ++ ns)
            ((m.attempt p now i).snapshots.reverse ++ ss) (hf'.trans hf)
        obtain ⟨hm, hr⟩ := pace_alike p count hs.machine
        refine ⟨count + 1, ?_, (m.attempt p now i).snapshots ++ shown, ?_, ?_, ?_, ?_⟩
        · rw [hn, attemptsIn_append, attemptsIn_reverse, ha.attemptsIn_notices]
          omega
        · rw [hsn, List.reverse_append, List.reverse_reverse, List.append_assoc]
        · rw [e]
          exact hp.alike.trans hm
        · rw [e, hp.snapshots, hr, hs.snapshots]
        · exact hp.program.trans ha.program

/-- A run that attempts nothing. -/
theorem Paces.zero {p : Program} {m final : Machine δ} (h : Alike final m)
    (hp : final.program = m.program) : Paces p m 0 final [] := ⟨h, rfl, hp⟩

theorem Idle.paces {m : Machine δ} {r : Run δ} (h : Idle m r) (p : Program) :
    Paces p m (attemptsIn r.notices) r.machine r.snapshots := by
  rw [h.notices, h.snapshots]
  obtain hm | ⟨o, hm⟩ := h.machine
  · rw [hm]
    exact Paces.zero (Alike.refl m) rfl
  · rw [hm]
    exact Paces.zero (Alike.settle m o) rfl

theorem runDuring_paces {p : Program} {m : Machine δ} (hp : m.program = some p)
    (start later budget : Nat) :
    Paces p m (attemptsIn (m.runDuring start later budget).notices)
      (m.runDuring start later budget).machine (m.runDuring start later budget).snapshots := by
  obtain ⟨r, hidle, hr⟩ | ⟨hf, he, ha⟩ := idle_or_awake hp start later
  · rw [hr]
    exact hidle.paces p
  · rw [runDuring_awake hp hf he ha]
    obtain ⟨count, hn, shown, hs, h⟩ := loop_paces p later budget m.awakened [] [] hf
    obtain ⟨hm, hr⟩ := pace_alike p count (Alike.awakened m)
    rw [hn, hs]
    show Paces p m (0 + count) _ shown
    rw [Nat.zero_add]
    exact ⟨h.alike.trans hm, h.snapshots.trans hr, h.program⟩

/-! ## Schedules -/

/-- A call of the host: the time when it begins, the time from which a sleep counts that begins in it, and
the budget. -/
structure Call where
  start : Nat
  later : Nat
  budget : Nat
deriving DecidableEq, Repr

/-- A machine after some calls, with all that was reported and shown. -/
structure History (δ : Type) where
  machine : Machine δ
  notices : List Notice
  snapshots : List Snapshot

/-- How many instructions were attempted. -/
def History.attempts (h : History δ) : Nat := attemptsIn h.notices

/-- Serves the calls of a host one after the other. -/
def serve (m : Machine δ) : List Call → History δ
  | [] => ⟨m, [], []⟩
  | c :: rest =>
    let r := m.runDuring c.start c.later c.budget
    let h := r.machine.serve rest
    ⟨h.machine, r.notices ++ h.notices, r.snapshots ++ h.snapshots⟩

/-- Whatever the calls, the machine ends where as many attempts lead. -/
theorem serve_paces {p : Program} {m : Machine δ} (hp : m.program = some p) (calls : List Call) :
    Paces p m (m.serve calls).attempts (m.serve calls).machine (m.serve calls).snapshots := by
  induction calls generalizing m with
  | nil => exact Paces.zero (Alike.refl m) rfl
  | cons c rest ih =>
    have h := runDuring_paces hp c.start c.later c.budget
    have hrest := ih (h.program.trans hp)
    obtain ⟨hm, hr⟩ := pace_alike p
      ((m.runDuring c.start c.later c.budget).machine.serve rest).attempts h.alike
    have hn : (m.serve (c :: rest)).attempts =
        attemptsIn (m.runDuring c.start c.later c.budget).notices +
          ((m.runDuring c.start c.later c.budget).machine.serve rest).attempts := attemptsIn_append _ _
    rw [hn]
    refine ⟨?_, ?_, hrest.program.trans h.program⟩
    · rw [pace_add]
      exact hrest.alike.trans hm
    · rw [pace_add, ← hr, ← hrest.snapshots, ← h.snapshots]
      rfl

theorem serve_append (m : Machine δ) (s t : List Call) :
    m.serve (s ++ t) =
      ⟨((m.serve s).machine.serve t).machine, (m.serve s).notices ++ ((m.serve s).machine.serve t).notices,
        (m.serve s).snapshots ++ ((m.serve s).machine.serve t).snapshots⟩ := by
  induction s generalizing m with
  | nil => rfl
  | cons c rest ih =>
    rw [List.cons_append, serve, ih]
    simp only [serve, List.append_assoc]

/-! ## Two schedules -/

/-- Machines that agree on all that a program can see or that a host can see of it: registers, stack,
memory, generator, devices, where the program is, how far it has come and whether it has failed. -/
structure Agree (m m' : Machine δ) : Prop where
  registers : m.registers = m'.registers
  stack : m.stack = m'.stack
  stackPointer : m.stackPointer = m'.stackPointer
  returnAddress : m.returnAddress = m'.returnAddress
  position : m.position = m'.position
  cells : m.memory.cells = m'.memory.cells
  tags : m.memory.tags = m'.memory.tags
  random : m.random = m'.random
  devices : m.bench.devices = m'.bench.devices
  frame : m.frame = m'.frame
  watchdog : m.watchdog = m'.watchdog
  failure : m.failure = m'.failure

omit [Peripheral δ] in
theorem Alike.agree {m m' : Machine δ} (h : Alike m m') : Agree m m' := by
  obtain ⟨n, i, i', -, rfl, rfl⟩ := h
  exact ⟨rfl, rfl, rfl, rfl, rfl, rfl, rfl, rfl, rfl, rfl, rfl, rfl⟩

/-- A call during a pending sleep attempts nothing. -/
theorem attemptsIn_asleep {p : Program} {m : Machine δ} (hp : m.program = some p) {start : Nat}
    (ha : m.isAsleep start = true) (later budget : Nat) :
    attemptsIn (m.runDuring start later budget).notices = 0 := by
  obtain ⟨r, hidle, hr⟩ | ⟨-, -, hawake⟩ := idle_or_awake hp start later
  · rw [hr, hidle.notices]
    rfl
  · exact absurd (ha.symm.trans hawake) Bool.noConfusion

/-- Two hosts have a loaded program run by calls of any budgets at any times. If they have come to the same
number of attempts, their machines agree and they have been shown the same: what as many attempts come to
that nothing interrupts. A call during a pending sleep changes nothing of this. -/
theorem serve_agree {p : Program} {m : Machine δ} (hp : m.program = some p) (s t : List Call)
    (h : (m.serve s).attempts = (m.serve t).attempts) :
    Agree (m.serve s).machine (m.serve t).machine ∧ (m.serve s).snapshots = (m.serve t).snapshots ∧
      Agree (m.serve s).machine (pace p (m.serve s).attempts m).1 ∧
      (m.serve s).snapshots = (pace p (m.serve s).attempts m).2 ∧
      ∀ c : Call, (m.serve s).machine.isAsleep c.start = true →
        (m.serve (s ++ [c])).attempts = (m.serve s).attempts ∧
          Agree (m.serve (s ++ [c])).machine (m.serve s).machine ∧
          (m.serve (s ++ [c])).snapshots = (m.serve s).snapshots := by
  have hs := serve_paces hp s
  have ht := serve_paces hp t
  rw [← h] at ht
  refine ⟨(hs.alike.trans ht.alike.symm).agree, hs.snapshots.trans ht.snapshots.symm, hs.alike.agree,
    hs.snapshots, fun c ha => ?_⟩
  have hn : (m.serve (s ++ [c])).attempts = (m.serve s).attempts := by
    have h₀ := attemptsIn_asleep (hs.program.trans hp) ha c.later c.budget
    rw [serve_append]
    simp only [History.attempts, serve, List.append_nil, attemptsIn_append, h₀, Nat.add_zero]
  have hc := serve_paces hp (s ++ [c])
  rw [hn] at hc
  exact ⟨hn, (hc.alike.trans hs.alike.symm).agree, hc.snapshots.trans hs.snapshots.symm⟩

end Pace

/-- A program that yields and sleeps on its way. -/
def pausing : Program where
  target := .debug
  instructions :=
    #[{ operation := .yield, line := 1 }, { operation := .sleep, left := some (.hexLiteral 5), line := 2 },
      { operation := .nop, line := 3 }, { operation := .ret, line := 4 }]

/-- A small machine with that program, watched by its host. -/
def pausingMachine : Machine Device :=
  ({ new ⟨1, 1, 1, 1⟩ 7 {} with observed := true }.load pausing {}).1

/-- One host goes step by step and calls again while the program sleeps, the other gives budgets to
spare. -/
theorem serve_agree_pausing :
    let s : List Call := [⟨0, 0, 1⟩, ⟨0, 1, 1⟩, ⟨2, 2, 9⟩, ⟨5000001, 5000001, 1⟩]
    let t : List Call := [⟨0, 0, 9⟩, ⟨0, 0, 9⟩, ⟨5000000, 5000000, 1⟩]
    pausingMachine.program = some pausing ∧
      (pausingMachine.serve s).attempts = 3 ∧ (pausingMachine.serve t).attempts = 3 ∧
      Agree (pausingMachine.serve s).machine (pausingMachine.serve t).machine ∧
      (pausingMachine.serve s).snapshots = (pausingMachine.serve t).snapshots := by
  have hs : (pausingMachine.serve
      [⟨0, 0, 1⟩, ⟨0, 1, 1⟩, ⟨2, 2, 9⟩, ⟨5000001, 5000001, 1⟩]).attempts = 3 := by decide +kernel
  have ht : (pausingMachine.serve
      [⟨0, 0, 9⟩, ⟨0, 0, 9⟩, ⟨5000000, 5000000, 1⟩]).attempts = 3 := by decide +kernel
  obtain ⟨hm, hn, -⟩ := serve_agree (m := pausingMachine) (p := pausing) rfl _ _ (hs.trans ht.symm)
  exact ⟨rfl, hs, ht, hm, hn⟩

end VirtualProcessor.Machine
