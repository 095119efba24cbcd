import Mathlib.Data.List.Chain
import VirtualProcessor.Proofs.Machine.Host
import VirtualProcessor.Proofs.Machine.Jump

/-!
# The trace of a program

A host that wants to see snapshots is shown one of every instruction that is completed. Of the attempts in the course
of some moves `completedOf` picks those at instructions that are completed. `Traced` relates them to the snapshots
and to the machine: an attempt keeps it (`traced_recorded`), hence the loop, a call and all moves
(`Recorded.afterAll`). So does `Mirrored`, as long as the host leaves the stack alone: the last snapshot shows the
machine as it is. Together these are the statement `trace_complete`.
-/

namespace VirtualProcessor.Machine

variable {δ : Type}

/-! ## Snapshots -/

/-- The snapshot of the `k`-th completed instruction on a machine of the given sizes. -/
structure Shows (c : Capacities) (k : Nat) (i : Instruction) (s : Snapshot) : Prop where
  frame : s.frame = UInt32.ofNat k
  line : s.line = i.line
  rawText : s.rawText = i.rawText
  text : s.text = i.text
  encoded : s.encoded = i.encoded
  registers : s.registers.size = c.registers
  stack : s.stack.size = c.stack
  memory : s.memory.size = c.memory
  blocks : s.blocks.size = c.memory

/-- One snapshot of each completed instruction. -/
structure Shown (c : Capacities) (done : List (Step δ)) (shown : List Snapshot) : Prop where
  length : shown.length = done.length
  each : ∀ k step s, done[k]? = some step → shown[k]? = some s → Shows c k step.instruction s

theorem Shown.concat {c : Capacities} {done : List (Step δ)} {shown : List Snapshot} (h : Shown c done shown)
    {step : Step δ} {s : Snapshot} (hs : Shows c done.length step.instruction s) :
    Shown c (done ++ [step]) (shown ++ [s]) := by
  refine ⟨by rw [List.length_append, List.length_append, h.length]; rfl, fun k step' s' hstep hshown => ?_⟩
  obtain hlt | rfl | hgt := Nat.lt_trichotomy k done.length
  · rw [List.getElem?_append_left hlt] at hstep
    rw [List.getElem?_append_left (h.length.symm ▸ hlt)] at hshown
    exact h.each k step' s' hstep hshown
  · rw [List.getElem?_concat_length] at hstep
    rw [← h.length, List.getElem?_concat_length] at hshown
    obtain rfl : step = step' := Option.some.inj hstep
    obtain rfl : s = s' := Option.some.inj hshown
    exact hs
  · rw [List.getElem?_eq_none (by rw [List.length_append]; exact hgt)] at hstep
    cases hstep

/-- A snapshot shows a machine as it is. -/
structure Mirrors (s : Snapshot) (m : Machine δ) : Prop where
  registers : s.registers = m.registers
  stack : s.stack = m.stack
  stackPointer : s.stackPointer = m.stackPointer
  returnAddress : s.returnAddress = m.returnAddress
  memory : s.memory = m.memory.cells
  blocks : s.blocks = m.memory.tags

/-! ## Attempts in the course of moves -/

section Steps

variable [Peripheral δ]

def Step.completes (p : Program) (s : Step δ) : Bool := s.machine.comesThrough p s.now s.instruction

/-- The program goes on at a position after an instruction: at the target of the jump if it is taken, and behind
the instruction otherwise. -/
def Step.LeadsTo (s : Step δ) (next : Nat) : Prop :=
  s.machine.Compares s.instruction ∧ s.machine.Names s.instruction next ∨
    ¬ s.machine.Compares s.instruction ∧ next = s.machine.position + 1

def snapshotsOf (m : Machine δ) : Move δ → List Snapshot
  | .run c => (m.answer c).snapshots
  | _ => []

/-- What the host is shown in the course of some moves. -/
def snapshots (m : Machine δ) (moves : List (Move δ)) : List Snapshot := m.collect snapshotsOf moves

/-- The attempts at instructions that are completed. -/
def completedOf (p : Program) (steps : List (Step δ)) : List (Step δ) := steps.filter (·.completes p)

theorem completedOf_of_completes {p : Program} {s : Step δ} (h : s.completes p = true) (steps : List (Step δ)) :
    completedOf p (steps ++ [s]) = completedOf p steps ++ [s] := by
  rw [completedOf, List.filter_append, List.filter_cons_of_pos h]
  rfl

theorem completedOf_of_fails {p : Program} {s : Step δ} (h : s.completes p = false) (steps : List (Step δ)) :
    completedOf p (steps ++ [s]) = completedOf p steps := by
  rw [completedOf, List.filter_append, List.filter_cons_of_neg (Bool.eq_false_iff.mp h)]
  exact List.append_nil _

/-- An attempt is made by a machine that has not failed, at the instruction that comes next. -/
structure Step.Fetches (p : Program) (s : Step δ) : Prop where
  program : s.machine.program = some p
  failure : s.machine.failure = none
  instruction : p.instructions[s.machine.position]? = some s.instruction

theorem fetches_of_loopSteps {p : Program} {m : Machine δ} (hp : m.program = some p) (hf : m.failure = none)
    (now budget : Nat) : ∀ s ∈ loopSteps p now budget m, s.Fetches p := by
  induction budget generalizing m with
  | zero => exact fun s hs => absurd hs List.not_mem_nil
  | succ budget ih =>
    unfold loopSteps
    cases hi : p.instructions[m.position]? with
    | none => exact fun s hs => absurd hs List.not_mem_nil
    | some i =>
      have ha := attempt_attempted m p now i
      refine List.forall_mem_cons.mpr ⟨⟨hp, hf, hi⟩, ?_⟩
      split
      · rename_i hending
        exact ih (ha.program.trans hp) ((ha.continues hending).2.1.trans hf)
      · exact fun s hs => absurd hs List.not_mem_nil

theorem fetches_of_stepsIn {p : Program} {m : Machine δ} (hp : m.program = some p) (c : Call) :
    ∀ s ∈ m.stepsIn c, s.Fetches p := by
  unfold stepsIn
  rw [hp]
  simp only
  split
  · rename_i hawake
    exact fetches_of_loopSteps (m := m.awakened) hp hawake.1 _ _
  · exact fun s hs => absurd hs List.not_mem_nil

theorem exists_fetches_of_tried (m : Machine δ) (moves : List (Move δ)) : ∀ s ∈ m.tried moves, ∃ p, s.Fetches p := by
  induction moves generalizing m with
  | nil => exact fun s hs => absurd hs List.not_mem_nil
  | cons a rest ih =>
    intro s hs
    rcases List.mem_append.mp hs with hs | hs
    · cases a with
      | run c =>
        cases hp : m.program with
        | none => exact absurd hs (by simp [stepsOf, stepsIn, hp])
        | some p => exact ⟨p, fetches_of_stepsIn hp c s hs⟩
      | _ => exact absurd hs List.not_mem_nil
    · exact ih (m.after a) s hs

/-! ## What lasts of one program -/

/-- A relation between the attempts so far, what was shown of them and the machine which lasts while the host makes
only such moves as `A` says. -/
structure Recorded (p : Program) (A : Move δ → Prop) (R : List (Step δ) → List Snapshot → Machine δ → Prop) :
    Prop where
  program {steps : List (Step δ)} {shown : List Snapshot} {m : Machine δ} (h : R steps shown m) :
    m.program = some p
  attempt {steps : List (Step δ)} {shown : List Snapshot} {m : Machine δ} {i : Instruction}
    (hi : p.instructions[m.position]? = some i) (now : Nat) (h : R steps shown m) :
    R (steps ++ [⟨m, now, i⟩]) (shown ++ (m.attempt p now i).snapshots) (m.attempt p now i).machine
  interlude {steps : List (Step δ)} {shown : List Snapshot} {m : Machine δ} (i : Interlude)
    (h : R steps shown m) : R steps shown (m.withInterlude i)
  handle {steps : List (Step δ)} {shown : List Snapshot} {m : Machine δ} {a : Move δ} (ha : A a)
    (hh : a.handles = true) (h : R steps shown m) : R steps shown (m.after a)

namespace Recorded

variable {p : Program} {A : Move δ → Prop} {R : List (Step δ) → List Snapshot → Machine δ → Prop}
  {steps : List (Step δ)} {shown : List Snapshot} {m : Machine δ}

theorem loop (hR : Recorded p A R) (h : R steps shown m) (now budget : Nat) :
    R (steps ++ loopSteps p now budget m) (shown ++ (loop p now budget m [] []).snapshots)
      (loop p now budget m [] []).machine := by
  induction budget generalizing m steps shown with
  | zero =>
    simp only [loopSteps, Machine.loop, List.reverse_nil, List.append_nil]
    exact hR.interlude (m.settle _).interlude h
  | succ budget ih =>
    unfold loopSteps Machine.loop
    cases hi : p.instructions[m.position]? with
    | none =>
      simp only [List.reverse_nil, List.append_nil]
      exact hR.interlude (m.settle _).interlude h
    | some i =>
      have ha := hR.attempt hi now h
      simp only
      cases (m.attempt p now i).ending with
      | some ending => simpa using ha
      | none =>
        -- The loop goes on with what was shown so far; `ih` speaks of one that starts with nothing.
        rw [loop_eq]
        have hrest := ih ha
        simpa using hrest

theorem answer (hR : Recorded p A R) (h : R steps shown m) (c : Call) :
    R (steps ++ m.stepsIn c) (shown ++ (m.answer c).snapshots) (m.answer c).machine := by
  have hp := hR.program h
  unfold stepsIn Machine.answer
  rw [hp]
  simp only
  split
  · rename_i hawake
    obtain ⟨hf, he, ha⟩ := hawake
    rw [runDuring_awake hp hf (Nat.not_le.mpr he) ha]
    exact hR.loop (m := m.awakened) (hR.interlude m.awakened.interlude h) _ _
  · rename_i hasleep
    obtain ⟨r, hidle, hr⟩ | ⟨hf, he, ha⟩ := idle_or_awake hp c.start c.later
    · rw [hr, hidle.snapshots, List.append_nil, List.append_nil]
      exact hidle.keeps h fun o => hR.interlude (m.settle o).interlude h
    · exact absurd ⟨hf, Nat.not_le.mp he, ha⟩ hasleep

theorem after (hR : Recorded p A R) (h : R steps shown m) {a : Move δ} (ha : A a)
    (hl : ∀ q options, a ≠ .load q options) :
    R (steps ++ m.stepsOf a) (shown ++ m.snapshotsOf a) (m.after a) := by
  cases a with
  | load q options => exact absurd rfl (hl q options)
  | run c => exact hR.answer h c
  | _ =>
    simp only [stepsOf, snapshotsOf, List.append_nil]
    exact hR.handle ha rfl h

theorem afterAll (hR : Recorded p A R) (h : R steps shown m) {moves : List (Move δ)}
    (ha : ∀ a ∈ moves, A a) (hl : ∀ q options, Move.load q options ∉ moves) :
    R (steps ++ m.tried moves) (shown ++ m.snapshots moves) (m.afterAll moves) := by
  induction moves generalizing m steps shown with
  | nil =>
    simp only [tried, snapshots, collect, List.append_nil]
    exact h
  | cons a rest ih =>
    simp only [tried, snapshots, collect, ← List.append_assoc]
    refine ih (hR.after h (ha a List.mem_cons_self) fun q options e => ?_) (fun b hb => ?_) fun q options hmem => ?_
    · exact hl q options (e ▸ List.mem_cons_self)
    · exact ha b (List.mem_cons_of_mem a hb)
    · exact hl q options (List.mem_cons_of_mem a hmem)

end Recorded

/-! ## The way of a program -/

/-- Completed instructions that follow one another from the start of the program to a position. -/
structure Path (p : Program) (done : List (Step δ)) (position : Nat) : Prop where
  start : done = [] → position = 0
  first : ∀ s ∈ done.head?, s.machine.position = 0
  chain : done.IsChain fun s t => s.LeadsTo t.machine.position
  /-- At the end of the program nothing is said, for `ret` leads nowhere. -/
  leads : ∀ s ∈ done.getLast?, position < p.size → s.LeadsTo position

theorem path_nil (p : Program) : Path (δ := δ) p [] 0 :=
  ⟨fun _ => rfl, fun _ h => absurd h (Option.not_mem_none _), .nil, fun _ h => absurd h (Option.not_mem_none _)⟩

theorem Path.concat {p : Program} {done : List (Step δ)} {s : Step δ} (h : Path p done s.machine.position)
    (hlt : s.machine.position < p.size) {next : Nat} (hnext : next < p.size → s.LeadsTo next) :
    Path p (done ++ [s]) next := by
  refine ⟨fun e => ?_, fun t ht => ?_, ?_, fun t ht => ?_⟩
  · exact absurd e (List.append_ne_nil_of_right_ne_nil _ (List.cons_ne_nil _ _))
  · cases done with
    | nil =>
      obtain rfl : s = t := Option.some.inj ht
      exact h.start rfl
    | cons a rest => exact h.first t ht
  · refine h.chain.append (.singleton s) fun t ht u hu => ?_
    obtain rfl : s = u := Option.some.inj hu
    exact h.leads t ht hlt
  · rw [List.getLast?_concat] at ht
    obtain rfl : s = t := Option.some.inj ht
    exact hnext

/-- What a completed instruction leads to is where the program goes on, unless that is its end. -/
theorem leadsTo_position {m m' : Machine δ} {p : Program} {now : Nat} {i : Instruction} {flow : Flow}
    (h : (execute p m.position now i).run m = .ok flow m')
    (hlt : flow.target m.position p.size < p.size) :
    (⟨m, now, i⟩ : Step δ).LeadsTo (flow.target m.position p.size) := by
  obtain ⟨hc, next, rfl, hn⟩ | ⟨hc, hflow⟩ := jumps_iff_compares h
  · exact .inl ⟨hc, hn⟩
  · refine .inr ⟨hc, ?_⟩
    cases flow with
    | next => rfl
    | jump next => exact absurd rfl (hflow next)
    | suspend o => rfl
    | finish => exact absurd hlt (Nat.lt_irrefl _)

/-! ## One attempt -/

section Attempt

variable {m : Machine δ} {p : Program} {now : Nat} {i : Instruction}

/-- A host that wants to see snapshots is shown the machine after a completed instruction, not yet counted, and the
program goes on where the instruction leads. -/
theorem attempt_completed (h : m.comesThrough p now i = true) (ho : m.observed = true) :
    ∃ s, (m.attempt p now i).snapshots = [s] ∧
      (s.frame = m.frame ∧ s.line = i.line ∧ s.rawText = i.rawText ∧ s.text = i.text ∧ s.encoded = i.encoded) ∧
      Mirrors s (m.attempt p now i).machine ∧
      ((m.attempt p now i).machine.position < p.size →
        (⟨m, now, i⟩ : Step δ).LeadsTo (m.attempt p now i).machine.position) := by
  unfold comesThrough at h
  cases hrun : (execute p m.position now i).run m with
  | error t m₁ =>
    rw [hrun] at h
    cases h
  | ok flow m₁ =>
    obtain ⟨w, wake, hattempt⟩ := attempt_of_ok hrun
    have hw : (m.attempt p now i).machine.workspace = w := by
      rw [hattempt, workspace_complete]
      rfl
    have hs : (m.attempt p now i).snapshots = [(m.worked p w wake flow).snapshot i] := by
      rw [hattempt, snapshots_complete]
      exact if_pos ho
    refine ⟨_, hs, ⟨rfl, rfl, rfl, rfl, rfl⟩, ?_, ?_⟩
    · subst hw
      exact ⟨rfl, rfl, rfl, rfl, rfl, rfl⟩
    · rw [position_attempt hrun]
      exact leadsTo_position hrun

/-- An instruction that fails is not shown, and the program stays where it is. -/
theorem attempt_failed (h : m.comesThrough p now i = false) :
    (m.attempt p now i).snapshots = [] ∧ (m.attempt p now i).machine.position = m.position ∧
      (m.attempt p now i).machine.frame = m.frame := by
  unfold comesThrough at h
  have hattempt := attempt_attempted m p now i
  generalize m.attempt p now i = a at hattempt
  cases hattempt with
  | next _ _ _ _ hrun | stop _ _ _ _ _ _ _ _ hrun | bark _ _ _ _ hrun =>
    rw [hrun] at h
    cases h
  | fault => exact ⟨rfl, rfl, rfl⟩
  | breakdown => exact ⟨rfl, rfl, rfl⟩

end Attempt

/-! ## The invariants -/

/-- What is known of the attempts so far, what was shown of them and the machine. -/
structure Traced (c : Capacities) (p : Program) (steps : List (Step δ)) (shown : List Snapshot) (m : Machine δ) :
    Prop where
  holds : Holds p m
  sized : Sized c m
  observed : m.observed = true
  frame : m.frame = UInt32.ofNat (completedOf p steps).length
  placed : ∀ s ∈ steps, Holds p s.machine ∧ p.instructions[s.machine.position]? = some s.instruction
  path : Path p (completedOf p steps) m.position
  shown : Shown c (completedOf p steps) shown

/-- The host goes on to want to see snapshots of the program. -/
def Move.keepsWatching : Move δ → Bool
  | .load .. => false
  | .observe observed => observed
  | _ => true

/-- The host leaves the stack alone. -/
def Move.sparesStack : Move δ → Bool
  | .push _ => false
  | .pop => false
  | _ => true

theorem Traced.attempt {c : Capacities} {p : Program} {steps : List (Step δ)} {shown : List Snapshot}
    {m : Machine δ} (h : Traced c p steps shown m) {i : Instruction}
    (hi : p.instructions[m.position]? = some i) (now : Nat) :
    Traced c p (steps ++ [⟨m, now, i⟩]) (shown ++ (m.attempt p now i).snapshots)
      (m.attempt p now i).machine := by
  have ha := attempt_attempted m p now i
  have hholds : Holds p (m.attempt p now i).machine :=
    ⟨ha.program.trans h.holds.program, ha.lineIndex.trans h.holds.lineIndex⟩
  have hsized := h.sized.of_changes (attempt_changes m p now i) ha.slots
  have hplaced : ∀ s ∈ steps ++ [⟨m, now, i⟩],
      Holds p s.machine ∧ p.instructions[s.machine.position]? = some s.instruction := by
    intro s hs
    rcases List.mem_append.mp hs with hs | hs
    · exact h.placed s hs
    · obtain rfl := List.mem_singleton.mp hs
      exact ⟨h.holds, hi⟩
  cases hc : m.comesThrough p now i with
  | false =>
    obtain ⟨hs, hposition, hframe⟩ := attempt_failed hc
    have hfilter := completedOf_of_fails (s := ⟨m, now, i⟩) hc steps
    refine ⟨hholds, hsized, ha.observed.trans h.observed, ?_, hplaced, ?_, ?_⟩
    · rw [hfilter, hframe, h.frame]
    · rw [hfilter, hposition]
      exact h.path
    · rw [hfilter, hs, List.append_nil]
      exact h.shown
  | true =>
    obtain ⟨s, hs, ⟨hframe, hline, hraw, htext, hencoded⟩, hmirrors, hleads⟩ := attempt_completed hc h.observed
    have hfilter := completedOf_of_completes (s := ⟨m, now, i⟩) hc steps
    refine ⟨hholds, hsized, ha.observed.trans h.observed, ?_, hplaced, ?_, ?_⟩
    · rw [hfilter, (attempt_through hc).1, h.frame, List.length_append, UInt32.ofNat_add]
      rfl
    · rw [hfilter]
      exact h.path.concat (Array.getElem?_eq_some_iff.mp hi).1 hleads
    · rw [hfilter, hs]
      refine h.shown.concat ⟨hframe.trans h.frame, hline, hraw, htext, hencoded, ?_, ?_, ?_, ?_⟩
      · rw [hmirrors.registers, hsized.registers]
      · rw [hmirrors.stack, hsized.stack]
      · rw [hmirrors.memory, hsized.cells]
      · rw [hmirrors.blocks, hsized.tags]

theorem observed_after {m : Machine δ} {a : Move δ} (ha : a.keepsWatching = true) (hh : a.handles = true)
    (h : m.observed = true) : (m.after a).observed = true := by
  cases a with
  | load => cases hh
  | run => cases hh
  | push value =>
    obtain ⟨stack, stackPointer, -, e⟩ := m.after_push value
    rw [e]
    exact h
  | pop =>
    obtain ⟨stackPointer, e⟩ := m.after_pop
    rw [e]
    exact h
  | plug slot place =>
    obtain ⟨slots, -, e⟩ := m.after_plug slot place
    rw [e]
    exact h
  | unplug slot =>
    obtain ⟨slots, -, e⟩ := m.after_unplug slot
    rw [e]
    exact h
  | observe observed => exact ha
  | work bench => exact h

theorem traced_recorded (c : Capacities) (p : Program) :
    Recorded (δ := δ) p (·.keepsWatching = true) (Traced c p) where
  program h := h.holds.program
  attempt hi now h := h.attempt hi now
  interlude _ h :=
    ⟨⟨h.holds.program, h.holds.lineIndex⟩, (sized_kept c).interlude _ h.sized, h.observed, h.frame, h.placed,
      h.path, h.shown⟩
  handle {steps shown m a} ha hh h := by
    have hm := handled_after m hh
    have hindex : (m.after a).lineIndex = m.lineIndex := hm.keeps _ fun _ _ _ _ _ _ => rfl
    have hframe : (m.after a).frame = m.frame := hm.keeps _ fun _ _ _ _ _ _ => rfl
    refine ⟨⟨hm.program.trans h.holds.program, hindex.trans h.holds.lineIndex⟩, (sized_kept c).handle hm h.sized,
      observed_after ha hh h.observed, hframe.trans h.frame, h.placed, ?_, h.shown⟩
    rw [hm.position]
    exact h.path

/-- A program starts with nothing attempted and nothing shown. -/
theorem traced_load {c : Capacities} {m : Machine δ} (hs : Sized c m) (ho : m.observed = true) (p : Program)
    (options : LoadOptions) : Traced c p [] [] (m.load p options).1 := by
  have hsized := (sized_kept c).load (p := p) trivial options hs
  rw [load_eq] at hsized ⊢
  refine ⟨⟨rfl, rfl⟩, hsized, ho, rfl, fun s hs => absurd hs List.not_mem_nil, path_nil p, rfl, fun k _ _ h => ?_⟩
  rw [show completedOf p [] = [] from rfl, List.getElem?_nil] at h
  cases h

/-- As long as all instructions are completed, the last snapshot shows the machine as it is. -/
structure Mirrored (p : Program) (steps : List (Step δ)) (shown : List Snapshot) (m : Machine δ) : Prop where
  program : m.program = some p
  observed : m.observed = true
  mirrors : (∀ s ∈ steps, s.completes p = true) → ∀ s ∈ shown.getLast?, Mirrors s m

theorem mirrors_after {s : Snapshot} {m : Machine δ} {a : Move δ} (ha : a.sparesStack = true)
    (hh : a.handles = true) (h : Mirrors s m) : Mirrors s (m.after a) := by
  obtain ⟨hr, hst, hsp, hra, hc, ht⟩ := h
  cases a with
  | load => cases hh
  | run => cases hh
  | push => cases ha
  | pop => cases ha
  | plug slot place =>
    obtain ⟨slots, -, e⟩ := m.after_plug slot place
    rw [e]
    exact ⟨hr, hst, hsp, hra, hc, ht⟩
  | unplug slot =>
    obtain ⟨slots, -, e⟩ := m.after_unplug slot
    rw [e]
    exact ⟨hr, hst, hsp, hra, hc, ht⟩
  | observe observed => exact ⟨hr, hst, hsp, hra, hc, ht⟩
  | work bench => exact ⟨hr, hst, hsp, hra, hc, ht⟩

theorem mirrored_recorded (p : Program) :
    Recorded (δ := δ) p (fun a => a.keepsWatching = true ∧ a.sparesStack = true) (Mirrored p) where
  program h := h.program
  attempt {steps shown m i} hi now h := by
    have ha := attempt_attempted m p now i
    refine ⟨ha.program.trans h.program, ha.observed.trans h.observed, fun hall s hs => ?_⟩
    have hc : m.comesThrough p now i = true := hall ⟨m, now, i⟩ (List.mem_append_right _ List.mem_cons_self)
    obtain ⟨s', hs', -, hmirrors, -⟩ := attempt_completed hc h.observed
    rw [hs', List.getLast?_concat] at hs
    obtain rfl : s' = s := Option.some.inj hs
    exact hmirrors
  interlude _ h := by
    refine ⟨h.program, h.observed, fun hall s hs => ?_⟩
    obtain ⟨hr, hst, hsp, hra, hc, ht⟩ := h.mirrors hall s hs
    exact ⟨hr, hst, hsp, hra, hc, ht⟩
  handle {steps shown m a} ha hh h :=
    ⟨(handled_after m hh).program.trans h.program, observed_after ha.1 hh h.observed,
      fun hall s hs => mirrors_after ha.2 hh (h.mirrors hall s hs)⟩

/-- If the host leaves the stack alone after a call that shows it something, what it was shown last is the machine as
it is. -/
theorem mirrored_last {c : Capacities} {p : Program} {start : Machine δ} {early rest : List (Move δ)} {call : Call}
    (h : Traced c p (start.tried early) (start.snapshots early) (start.afterAll early))
    (hshown : (start.afterAll early).snapshots [.run call] ≠ [])
    (hrest : ∀ a ∈ rest, a.keepsWatching = true ∧ a.sparesStack = true)
    (hall : ∀ step ∈ start.tried (early ++ .run call :: rest), step.completes p = true) :
    ∃ s, (start.snapshots (early ++ .run call :: rest)).getLast? = some s ∧
      Mirrors s (start.afterAll (early ++ .run call :: rest)) := by
  have hmoves : ∀ a ∈ Move.run call :: rest, a.keepsWatching = true ∧ a.sparesStack = true := by
    intro a ha
    rcases List.mem_cons.mp ha with rfl | ha
    · exact ⟨rfl, rfl⟩
    · exact hrest a ha
  have hload : ∀ q options, Move.load q options ∉ Move.run call :: rest := fun q options hmem => by
    cases (hmoves _ hmem).1
  -- What was tried and shown before the call does not count: the invariant starts afresh.
  have hstart : Mirrored p [] [] (start.afterAll early) :=
    ⟨h.holds.program, h.observed, fun _ s hs => absurd hs (Option.not_mem_none s)⟩
  have hend := (mirrored_recorded p).afterAll hstart hmoves hload
  rw [List.nil_append, List.nil_append, ← afterAll_append] at hend
  have hsplit : start.snapshots (early ++ .run call :: rest) =
      start.snapshots early ++ (start.afterAll early).snapshots (.run call :: rest) := collect_append ..
  have htried : start.tried (early ++ .run call :: rest) =
      start.tried early ++ (start.afterAll early).tried (.run call :: rest) := collect_append ..
  have hne : (start.afterAll early).snapshots (.run call :: rest) ≠ [] := by
    intro e
    have hcall := (List.append_eq_nil_iff.mp e).1
    exact hshown (by rw [snapshots, collect, hcall]; rfl)
  obtain ⟨s, hs⟩ := List.getLast?_isSome.mpr hne |> Option.isSome_iff_exists.mp
  refine ⟨s, ?_, hend.mirrors (fun step hstep => hall step ?_) s hs⟩
  · rw [hsplit, List.getLast?_append, hs]
    rfl
  · rw [htried]
    exact List.mem_append_right _ hstep

/-- A program is loaded into a machine whose host wants to see snapshots and goes on to do so. Whatever else the host
does, it is shown one snapshot of every completed instruction, in order, and nothing of one that fails. The machine
counts them. Each snapshot is as large as the machine and carries its number and the line, the texts and the coding of
its instruction. The completed instructions start with the first one of the program, and each of them stands behind
the one before it, or at the target if that is a jump which is taken. As long as no instruction has failed and the
host has left the stack alone, the last snapshot shows the machine as it is. -/
theorem trace_complete (c : Capacities) (seed : UInt64) (bench : Bench δ) (before : List (Move δ))
    (hwatched : ((new c seed bench).afterAll before).observed = true) (p : Program) (options : LoadOptions)
    (moves : List (Move δ)) (hmoves : ∀ a ∈ moves, a.keepsWatching = true) :
    let start := (((new c seed bench).afterAll before).load p options).1
    let m := start.afterAll moves
    let done := completedOf p (start.tried moves)
    let snapshots := start.snapshots moves
    snapshots.length = done.length ∧
      (∀ k step s, done[k]? = some step → snapshots[k]? = some s → Shows c k step.instruction s) ∧
      m.frame = UInt32.ofNat snapshots.length ∧
      (∀ step ∈ start.tried moves,
        Holds p step.machine ∧ p.instructions[step.machine.position]? = some step.instruction) ∧
      (∀ step ∈ done.head?, step.machine.position = 0) ∧
      (done.IsChain fun s t => s.LeadsTo t.machine.position) ∧
      ∀ early call rest, moves = early ++ .run call :: rest →
        (start.afterAll early).snapshots [.run call] ≠ [] → (∀ a ∈ rest, a.sparesStack = true) →
        (∀ step ∈ start.tried moves, step.completes p = true) → ∃ s, snapshots.getLast? = some s ∧ Mirrors s m := by
  intro start m done snapshots
  have hload : ∀ q options, Move.load q options ∉ moves := fun q options hmem => by
    cases hmoves _ hmem
  have hstart : Traced c p [] [] start := traced_load (sized_afterAll c seed bench before) hwatched p options
  have htraced : Traced c p (start.tried moves) snapshots m :=
    (traced_recorded c p).afterAll hstart hmoves hload
  refine ⟨htraced.shown.length, htraced.shown.each, ?_, htraced.placed, htraced.path.first, htraced.path.chain, ?_⟩
  · rw [htraced.frame, htraced.shown.length]
  · intro early call rest hsplit hshown hspare hall
    subst hsplit
    have hearly : Traced c p (start.tried early) (start.snapshots early) (start.afterAll early) := by
      refine (traced_recorded c p).afterAll hstart (fun a ha => ?_) fun q options hmem => ?_
      · exact hmoves a (List.mem_append_left _ ha)
      · exact hload q options (List.mem_append_left _ hmem)
    refine mirrored_last hearly hshown (fun a ha => ⟨hmoves a ?_, hspare a ha⟩) hall
    exact List.mem_append_right _ (List.mem_cons_of_mem _ ha)

end Steps

/-- The program that yields and sleeps on its way is shown in two calls; in between the host pushes a value. -/
theorem trace_complete_pausing :
    let moves : List (Move Device) := [.run ⟨0, 0, 9⟩, .push 1, .run ⟨0, 0, 9⟩, .plug 0 0]
    let ready := (new ⟨1, 1, 1, 1⟩ 7 {}).afterAll [.observe true]
    let start := (ready.load pausing {}).1
    ready.observed = true ∧ (∀ a ∈ moves, a.keepsWatching = true) ∧
      (start.snapshots moves).length = 2 ∧ (start.afterAll moves).frame = 2 ∧
      ∃ s, (start.snapshots moves).getLast? = some s ∧ Mirrors s (start.afterAll moves) := by
  intro moves ready start
  have hmoves : ∀ a ∈ moves, a.keepsWatching = true := List.all_eq_true.mp rfl
  have hlength : (start.snapshots moves).length = 2 := by decide +kernel
  have hshown : (start.afterAll [.run ⟨0, 0, 9⟩, .push 1]).snapshots [.run ⟨0, 0, 9⟩] ≠ [] := by
    refine List.ne_nil_of_length_pos ?_
    decide +kernel
  have hall : ∀ step ∈ start.tried moves, step.completes pausing = true := by
    refine List.all_eq_true.mp ?_
    decide +kernel
  obtain ⟨-, -, hframe, -, -, -, hlast⟩ :=
    trace_complete ⟨1, 1, 1, 1⟩ 7 {} [.observe true] rfl pausing {} moves hmoves
  refine ⟨rfl, hmoves, hlength, ?_, ?_⟩
  · exact hframe.trans (congrArg UInt32.ofNat hlength)
  · exact hlast [.run ⟨0, 0, 9⟩, .push 1] ⟨0, 0, 9⟩ [.plug 0 0] rfl hshown (List.all_eq_true.mp rfl) hall

end VirtualProcessor.Machine
