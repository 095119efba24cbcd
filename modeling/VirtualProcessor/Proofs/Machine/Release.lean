import VirtualProcessor.Proofs.Assembly.Passes
import VirtualProcessor.Proofs.Machine.Host
import VirtualProcessor.Proofs.Machine.Steady

/-!
# Programs for release

A program for release is the one for debugging with another target and without texts (`assemble_release`). It has the
same lines, so that jumps lead to the same positions (`ofProgram_released`, `returnLine_released`). `Matches` relates
a machine that debugs to one that runs the release: they differ in what is no business of instructions, and in the
texts of a failure. An attempt keeps that (`attempt_matches`), unless an assertion fails; hence any number of attempts
do (`pace_matches`), however the hosts divide them (`release_simulates`).
-/

namespace VirtualProcessor

/-! ## Programs without texts -/

/-- The program for release that belongs to a program for debugging. -/
def Program.released (p : Program) : Program := { p.stripped with target := .release }

namespace Program

theorem getElem?_released (p : Program) (k : Nat) :
    p.released.instructions[k]? = p.instructions[k]?.map Instruction.stripped := Array.getElem?_map

theorem size_released (p : Program) : p.released.size = p.size := Array.size_map

theorem lineAfter_released (p : Program) (line : UInt32) (position count : Nat) :
    p.released.lineAfter line position count = p.lineAfter line position count := by
  induction count generalizing position with
  | zero => rfl
  | succ count ih =>
    rw [lineAfter, lineAfter, getElem?_released]
    cases p.instructions[position]? with
    | none => rfl
    | some i =>
      simp only [Option.map_some, ih]
      rfl

theorem returnLine_released (p : Program) (position : Nat) (line : UInt32) :
    p.released.returnLine position line = p.returnLine position line := by
  rw [returnLine, returnLine, lineAfter_released, size_released]

end Program

theorem LineIndex.enter_stripped (index : LineIndex) (position : Nat) (is : List Instruction) :
    enter index position (is.map Instruction.stripped) = enter index position is := by
  induction is generalizing index position with
  | nil => rfl
  | cons i rest ih => exact ih _ _

theorem LineIndex.ofProgram_released (p : Program) : ofProgram p.released = ofProgram p := by
  show enter ∅ 0 (p.instructions.map Instruction.stripped).toList = _
  rw [Array.toList_map, enter_stripped]
  rfl

/-- Assembling for release comes to the same error as assembling for debugging, or to the same program without
texts. -/
theorem Assembly.assemble_release (a : Assembler) (source : String) :
    (a.assemble source .release).result = (a.assemble source .debug).result.map Program.released := by
  rw [assemble_result, assemble_result]
  cases (a.prepare source).result with
  | error e => rfl
  | ok prepared =>
    cases h : (readLines a.families 0 prepared.lines).result with
    | error e => simp only [bind, Except.bind, h]; rfl
    | ok written => simp only [bind, Except.bind, h]; rfl

theorem Assembly.target_of_assemble {a : Assembler} {source : String} {p : Program}
    (h : (a.assemble source .debug).result = .ok p) : p.target = .debug := by
  obtain ⟨expanded, written, -, -, -, -, rfl⟩ := assemble_eq_ok_iff.mp h
  rfl

/-- A fault without the text of its line. -/
def Fault.textless : Fault → Fault
  | failed cause location => failed cause { location with text := "" }
  | fault => fault

namespace Machine

variable {δ : Type}

/-! ## Machines that match -/

/-- Surroundings of a machine that fit another one which debugs: the program is at the same place and has failed
alike, but for the text. -/
structure Surroundings.Fits (s : Surroundings) (m : Machine δ) : Prop where
  position : s.position = m.position
  frame : s.frame = m.frame
  watchdog : s.watchdog = m.watchdog
  failure : s.failure = m.failure.map Fault.textless

/-- The second machine is the first one in surroundings that fit it. -/
def Matches (m m' : Machine δ) : Prop := ∃ s : Surroundings, s.Fits m ∧ m' = m.withSurroundings s

/-- A completed instruction that was not one too many is counted, and the interlude may change. -/
theorem complete_counts {m : Machine δ} (hw : m.watchdog ≠ some 0) (i : Instruction) (flow : Flow)
    (report : Notice) :
    ∃ h, (m.complete i flow report).machine =
      { m with frame := m.frame + 1, watchdog := m.watchdog.map (· - 1) }.withInterlude h := by
  cases ho : flow.outcome? with
  | none =>
    rw [complete_of_next hw i ho]
    exact ⟨m.interlude, rfl⟩
  | some o =>
    rw [complete_of_outcome hw i ho]
    exact ⟨(m.settle o).interlude, rfl⟩

namespace Matches

variable {m m' : Machine δ}

theorem interlude (h : Matches m m') (i i' : Interlude) : Matches (m.withInterlude i) (m'.withInterlude i') := by
  obtain ⟨s, hs, rfl⟩ := h
  exact ⟨((m.withSurroundings s).withInterlude i').surroundings,
    ⟨hs.position, hs.frame, hs.watchdog, hs.failure⟩, rfl⟩

theorem latch (h : Matches m m') (fault : Fault) : Matches (m.latch fault) (m'.latch fault.textless) := by
  obtain ⟨s, hs, rfl⟩ := h
  exact ⟨((m.withSurroundings s).latch fault.textless).surroundings,
    ⟨hs.position, hs.frame, hs.watchdog, rfl⟩, rfl⟩

theorem goTo (h : Matches m m') (position : Nat) :
    Matches { m with position := position } { m' with position := position } := by
  obtain ⟨s, hs, rfl⟩ := h
  exact ⟨{ s with position := position }, ⟨rfl, hs.frame, hs.watchdog, hs.failure⟩, rfl⟩

theorem count (h : Matches m m') : Matches { m with frame := m.frame + 1 } { m' with frame := m'.frame + 1 } := by
  obtain ⟨s, hs, rfl⟩ := h
  refine ⟨{ s with frame := s.frame + 1 }, ⟨hs.position, ?_, hs.watchdog, hs.failure⟩, rfl⟩
  rw [hs.frame]

theorem watch (h : Matches m m') :
    Matches { m with watchdog := m.watchdog.map (· - 1) } { m' with watchdog := m'.watchdog.map (· - 1) } := by
  obtain ⟨s, hs, rfl⟩ := h
  refine ⟨{ s with watchdog := s.watchdog.map (· - 1) }, ⟨hs.position, hs.frame, ?_, hs.failure⟩, rfl⟩
  rw [hs.watchdog]

theorem failure (h : Matches m m') : m'.failure = m.failure.map Fault.textless := by
  obtain ⟨s, hs, rfl⟩ := h
  exact hs.failure

theorem position (h : Matches m m') : m'.position = m.position := by
  obtain ⟨s, hs, rfl⟩ := h
  exact hs.position

theorem watchdog (h : Matches m m') : m'.watchdog = m.watchdog := by
  obtain ⟨s, hs, rfl⟩ := h
  exact hs.watchdog

/-- The instruction that is completed is counted alike, whether it ends the run or not. -/
theorem complete (h : Matches m m') (i : Instruction) (flow flow' : Flow) (report report' : Notice) :
    Matches (m.complete i flow report).machine (m'.complete i.stripped flow' report').machine := by
  by_cases hw : m.watchdog = some 0
  · rw [complete_of_bark hw, complete_of_bark (h.watchdog.trans hw)]
    exact h.count.latch (.failed .watchdogBark (locationOf i))
  · obtain ⟨k, hk⟩ := complete_counts hw i flow report
    obtain ⟨k', hk'⟩ := complete_counts (m := m') (fun e => hw (h.watchdog.symm.trans e)) i.stripped flow' report'
    rw [hk, hk']
    exact h.count.watch.interlude k k'

end Matches

/-! ## The work of an instruction -/

section Work

variable [Peripheral δ] {p : Program} {i : Instruction}

theorem jumpTo_released (p : Program) (position : Nat) (i : Instruction) (links taken : Bool) :
    (jumpTo p.released position i.stripped links taken : Action δ Flow) = jumpTo p position i links taken := by
  unfold jumpTo
  simp only [Program.returnLine_released]
  rfl

/-- Every operation but two does the same in both programs. -/
theorem perform_released (ha : i.operation ≠ .assert) (hb : i.operation ≠ .breakpoint) (p : Program)
    (position now : Nat) (left right : Float) :
    (perform p.released position now i.stripped left right : Action δ Flow) =
      perform p position now i left right := by
  unfold perform
  rw [show i.stripped.operation = i.operation from rfl]
  cases ho : i.operation with
  | assert => exact absurd ho ha
  | breakpoint => exact absurd ho hb
  | jump links => exact jumpTo_released ..
  | branch c links => exact jumpTo_released ..
  | _ => rfl

/-- What the work of an instruction comes to in both programs: the same, but for the surroundings and for where the
run ends. -/
inductive SameWork (s : Surroundings) :
    EStateM.Result Trouble (Machine δ) Flow → EStateM.Result Trouble (Machine δ) Flow → Prop
  | ok (flow flow' : Flow) (hflow : ∀ position size, flow'.target position size = flow.target position size)
      (m : Machine δ) (wake : Option Nat) :
    SameWork s (.ok flow m) (.ok flow' (m.withSurroundings { s with wakeAt := wake }))
  | error (t : Trouble) (m : Machine δ) : SameWork s (.error t m) (.error t (m.withSurroundings s))

omit [Peripheral δ] in
theorem sameWork_resultIn (s : Surroundings) (r : EStateM.Result Trouble (Machine δ) Flow) :
    SameWork s r (resultIn s r) := by
  cases r with
  | ok flow m => exact .ok flow flow (fun _ _ => rfl) m s.wakeAt
  | error t m => exact .error t m

/-- An action that fails with faults only. -/
abbrev Faults {α : Type} (x : Action δ α) : Prop := Raises (fun t => ∃ cause, t = .fault cause) x

theorem read_faults (op : Operand) : Faults (read op : Action δ Float) := by
  refine (read_raises op).mono fun t ht => ?_
  cases t with
  | fault cause => exact ⟨cause, rfl⟩
  | emptyRange => exact absurd ht (by decide)

theorem check_faults (i : Instruction) (expected : Float) : Faults (check i expected : Action δ Unit) := by
  refine Raises.bind ?_ fun _ => Raises.ite (Raises.fail ⟨_, rfl⟩) (Raises.pure _)
  cases i.destination with
  | some op => exact read_faults op
  | none => exact Raises.fail ⟨_, rfl⟩

theorem check_steady {m : Machine δ} (hm : m.bench.Steady) (i : Instruction) (expected : Float) :
    finalOf ((check i expected).run m) = m := by
  have hread := readDestination_steady hm i.destination
  unfold check
  rw [EStateM.run_bind]
  cases hd : (readDestination i.destination).run m with
  | error t m₁ =>
    rw [hd] at hread
    exact hread
  | ok actual m₁ =>
    rw [hd] at hread
    obtain rfl : m₁ = m := hread
    simp only
    split <;> rfl

/-- A breakpoint ends the run of the program that debugs and nothing else. -/
theorem breakpoint_sameWork (hp : p.target = .debug) (hb : i.operation = .breakpoint) (m : Machine δ)
    (s : Surroundings) (position now : Nat) (left right : Float) :
    SameWork s ((perform p position now i left right).run m)
      ((perform p.released position now i.stripped left right).run (m.withSurroundings s)) := by
  have hrelease : p.isRelease = false := by rw [Program.isRelease, hp]; rfl
  simp only [perform, show i.stripped.operation = i.operation from rfl, hb, hrelease, Bool.false_eq_true, ↓reduceIte,
    show p.released.isRelease = true from rfl]
  exact .ok (.suspend .breakpoint) .next (fun _ _ => rfl) m s.wakeAt

/-- An assertion fails in the program that debugs, or nothing comes of it. -/
theorem assert_sameWork (hp : p.target = .debug) (ha : i.operation = .assert) {m : Machine δ}
    (hm : m.bench.Steady) (s : Surroundings) (position now : Nat) (left right : Float) :
    (∃ cause m', (perform p position now i left right).run m = .error (.fault cause) m') ∨
      SameWork s ((perform p position now i left right).run m)
        ((perform p.released position now i.stripped left right).run (m.withSurroundings s)) := by
  have hrelease : p.isRelease = false := by rw [Program.isRelease, hp]; rfl
  have hcheck := check_steady hm i left
  simp only [perform, show i.stripped.operation = i.operation from rfl, ha, hrelease, Bool.not_false, ↓reduceIte,
    show p.released.isRelease = true from rfl, Bool.not_true, Bool.false_eq_true]
  rw [EStateM.run_bind]
  cases hrun : (check i left).run m with
  | error t m₁ =>
    obtain ⟨cause, rfl⟩ := check_faults i left m t m₁ hrun
    exact .inl ⟨cause, m₁, rfl⟩
  | ok u m₁ =>
    rw [hrun] at hcheck
    obtain rfl : m₁ = m := hcheck
    exact .inr (.ok .next .next (fun _ _ => rfl) m₁ s.wakeAt)

/-- A sleep begins in both. -/
theorem sleep_sameWork (hs : i.operation = .sleep) (p : Program) (m : Machine δ) (s : Surroundings)
    (position now : Nat) (left right : Float) :
    SameWork s ((perform p position now i left right).run m)
      ((perform p position now i left right).run (m.withSurroundings s)) := by
  simp only [perform, hs]
  rw [EStateM.run_bind, EStateM.run_bind, sleepFor_run, sleepFor_run]
  by_cases hpos : 0 < left
  · simp only [hpos, ↓reduceIte]
    cases pause? left with
    | none => exact .error (.fault .badArguments) m
    | some pause =>
      exact .ok (.suspend .sleeping) (.suspend .sleeping) (fun _ _ => rfl) { m with wakeAt := some (now + pause) }
        (some (now + pause))
  · simp only [hpos, ↓reduceIte]
    exact .ok (.suspend .sleeping) (.suspend .sleeping) (fun _ _ => rfl) m s.wakeAt

/-- Only an assertion can fail in the program that debugs and not in the other one. -/
theorem perform_sameWork (hp : p.target = .debug) {m : Machine δ} (hm : m.bench.Steady) (s : Surroundings)
    (position now : Nat) (left right : Float) :
    (i.operation = .assert ∧ ∃ cause m', (perform p position now i left right).run m = .error (.fault cause) m') ∨
      SameWork s ((perform p position now i left right).run m)
        ((perform p.released position now i.stripped left right).run (m.withSurroundings s)) := by
  by_cases ha : i.operation = .assert
  · exact (assert_sameWork hp ha hm s position now left right).imp_left fun hfails => ⟨ha, hfails⟩
  refine .inr ?_
  by_cases hb : i.operation = .breakpoint
  · exact breakpoint_sameWork hp hb m s position now left right
  rw [perform_released ha hb]
  by_cases hs : i.operation = .sleep
  · exact sleep_sameWork hs p m s position now left right
  · rw [(perform_plain p position now hs left right).apart]
    exact sameWork_resultIn s _

theorem execute_sameWork (hp : p.target = .debug) {m : Machine δ} (hm : m.bench.Steady) (s : Surroundings)
    (position now : Nat) :
    (i.operation = .assert ∧ ∃ cause m', (execute p position now i).run m = .error (.fault cause) m') ∨
      SameWork s ((execute p position now i).run m)
        ((execute p.released position now i.stripped).run (m.withSurroundings s)) := by
  -- Both read the same operands, and reading leaves both machines as they are.
  unfold execute
  rw [show i.stripped.left = i.left from rfl, show i.stripped.right = i.right from rfl]
  rw [EStateM.run_bind, EStateM.run_bind, (readSource_plain i.left).apart]
  have hl := readSource_steady hm i.left
  cases hleft : (readSource i.left).run m with
  | error t m₁ => exact .inr (.error t m₁)
  | ok left m₁ =>
    rw [hleft] at hl
    obtain rfl : m₁ = m := hl
    simp only [resultIn]
    rw [EStateM.run_bind, EStateM.run_bind, (readSource_plain i.right).apart]
    have hr := readSource_steady hm i.right
    cases hright : (readSource i.right).run m₁ with
    | error t m₂ => exact .inr (.error t m₂)
    | ok right m₂ =>
      rw [hright] at hr
      obtain rfl : m₂ = m₁ := hr
      exact perform_sameWork hp hm s position now left right

/-! ## Attempts -/

/-- The program has failed in an assertion: because it does not hold, or because it cannot be checked. -/
def FailedInAssert (p : Program) (m : Machine δ) : Prop :=
  ∃ cause location i, m.failure = some (.failed cause location) ∧ cause ≠ .watchdogBark ∧
    p.instructions[m.position]? = some i ∧ i.operation = .assert

/-- An attempt comes to the same on machines that match, unless an assertion fails. -/
theorem attempt_matches (hp : p.target = .debug) {m m' : Machine δ} (h : Matches m m') (hm : m.bench.Steady)
    (hi : p.instructions[m.position]? = some i) (now : Nat) :
    FailedInAssert p (m.attempt p now i).machine ∨
      Matches (m.attempt p now i).machine (m'.attempt p.released now i.stripped).machine := by
  obtain ⟨s, hs, rfl⟩ := h
  have hposition : (m.withSurroundings s).position = m.position := hs.position
  obtain ⟨ha, cause, m₁, hrun⟩ | hsame := execute_sameWork (i := i) hp hm s m.position now
  · refine .inl ?_
    have hquiet := execute_quiet p m.position now i m _ m₁ hrun
    obtain ⟨w, rfl⟩ := execute_error hrun
    unfold attempt
    rw [hrun]
    exact ⟨cause, locationOf i, i, rfl, fun e => hquiet (by rw [e]), hi, ha⟩
  · refine .inr ?_
    unfold attempt
    rw [hposition]
    generalize hrun : (execute p m.position now i).run m = r at hsame
    generalize (execute p.released m.position now i.stripped).run (m.withSurroundings s) = r' at hsame
    cases hsame with
    | ok flow flow' hflow m₁ wake =>
      obtain ⟨-, w, wake', rfl, -⟩ := execute_ok hrun
      have hmatches : Matches { m.withWorkspace w with wakeAt := wake' }
          ({ m.withWorkspace w with wakeAt := wake' }.withSurroundings { s with wakeAt := wake }) :=
        ⟨{ s with wakeAt := wake }, ⟨hs.position, hs.frame, hs.watchdog, hs.failure⟩, rfl⟩
      simp only [advance_eq]
      rw [Program.size_released, hflow, hmatches.position]
      exact (hmatches.goTo _).complete i flow flow' _ _
    | error t m₁ =>
      obtain ⟨w, rfl⟩ := execute_error hrun
      have hmatches : Matches (m.withWorkspace w) ((m.withWorkspace w).withSurroundings s) :=
        ⟨s, ⟨hs.position, hs.frame, hs.watchdog, hs.failure⟩, rfl⟩
      cases t with
      | fault cause => exact hmatches.latch (.failed cause (locationOf i))
      | emptyRange => exact hmatches

/-- Machines that match attempt the same next, if anything. -/
theorem stride?_matches (hp : p.target = .debug) {m m' : Machine δ} (h : Matches m m') (hm : m.bench.Steady) :
    stride? p m = none ∧ stride? p.released m' = none ∨
      ∃ a a', stride? p m = some a ∧ stride? p.released m' = some a' ∧ a.machine.bench.Steady ∧
        (FailedInAssert p a.machine ∨ Matches a.machine a'.machine) := by
  unfold stride?
  rw [h.failure, h.position, Program.getElem?_released]
  cases m.failure with
  | some fault => exact .inl ⟨rfl, rfl⟩
  | none =>
    cases hi : p.instructions[m.position]? with
    | none => exact .inl ⟨rfl, rfl⟩
    | some i => exact .inr ⟨_, _, rfl, rfl, steady_attempt hm p 0 i, attempt_matches hp h hm hi 0⟩

/-- A program that has failed in an assertion stays there. -/
theorem pace_of_failedInAssert {m : Machine δ} (h : FailedInAssert p m) (n : Nat) : (pace p n m).1 = m := by
  obtain ⟨cause, location, -, hf, -⟩ := h
  have hstride : stride? p m = none := by simp only [stride?, hf]
  rw [pace_of_none hstride]

/-- Any number of attempts come to the same on machines that match, unless an assertion fails. -/
theorem pace_matches (hp : p.target = .debug) {m m' : Machine δ} (h : Matches m m') (hm : m.bench.Steady) {n : Nat}
    (hn : ¬ FailedInAssert p (pace p n m).1) : Matches (pace p n m).1 (pace p.released n m').1 := by
  induction n generalizing m m' with
  | zero => exact h
  | succ n ih =>
    obtain ⟨e, e'⟩ | ⟨a, a', e, e', hsteady, hmatches⟩ := stride?_matches hp h hm
    · rw [pace_of_none e, pace_of_none e']
      exact h
    · rw [pace_of_some e] at hn ⊢
      rw [pace_of_some e']
      obtain hfailed | hmatches := hmatches
      · exact absurd (by rwa [pace_of_failedInAssert hfailed n]) hn
      · exact ih hmatches hsteady hn

/-! ## Loading and running -/

omit [Peripheral δ] in
theorem textless_shortage? (c : Capacities) (r : Requirements) :
    (shortage? c r).map Fault.textless = shortage? c r := by
  cases h : shortage? c r with
  | none => rfl
  | some fault =>
    obtain ⟨resource, -, hfault⟩ := List.exists_of_findSome?_eq_some h
    split at hfault
    · cases hfault
      rfl
    · cases hfault

omit [Peripheral δ] in
/-- Both programs find the same machine when they are loaded. -/
theorem load_matches {c : Capacities} {m m' : Machine δ} (h : Sized c m) (h' : Sized c m')
    (hrandom : m'.random = m.random) (hslots : m'.slots = m.slots) (hbench : m'.bench = m.bench) (p : Program)
    (options : LoadOptions) : Matches (m.load p options).1 (m'.load p.released options).1 := by
  rw [load_eq, load_eq, (h.reset p options).capacities_eq, (h'.reset p.released options).capacities_eq]
  refine ⟨{ m'.reset p.released options with failure := shortage? c p.requirements }.surroundings, ?_, ?_⟩
  · exact ⟨rfl, rfl, rfl, (textless_shortage? c p.requirements).symm⟩
  · simp only [reset, Arena.clear, withSurroundings, surroundings, LineIndex.ofProgram_released, h.registers, h.stack,
      h.cells, h.tags, h.slots, h'.registers, h'.stack, h'.cells, h'.tags, hrandom, hslots, hbench]
    rfl

omit [Peripheral δ] in
theorem program_load (m : Machine δ) (p : Program) (options : LoadOptions) :
    (m.load p options).1.program = some p := by
  rw [load_eq]
  rfl

/-- A machine without the text of its failure. -/
def textless (m : Machine δ) : Machine δ := { m with failure := m.failure.map Fault.textless }

omit [Peripheral δ] in
theorem Matches.agree {m m' : Machine δ} (h : Matches m m') : Agree m.textless m' := by
  obtain ⟨s, hs, rfl⟩ := h
  exact ⟨rfl, rfl, rfl, rfl, hs.position.symm, rfl, rfl, rfl, rfl, hs.frame.symm, hs.watchdog.symm,
    hs.failure.symm⟩

omit [Peripheral δ] in
theorem Matches.of_alike {m m' n n' : Machine δ} (h : Matches m m') (hn : Alike n m) (hn' : Alike n' m') :
    Matches n n' := by
  obtain ⟨k, i, i', -, rfl, rfl⟩ := hn
  obtain ⟨k', j, j', -, rfl, rfl⟩ := hn'
  exact h.interlude i j

/-- A program for release simulates the one for debugging. Assembling the same source for both targets fails with the
same error or gives two programs that differ only in their target and in the texts, of which the one for release has
none. On machines of the same sizes with the same generator and the same devices, none of which reading changes, both
come to the same after any number of attempts, however their hosts divide these, as long as the one that debugs has
not failed in an assertion: what a program can see is equal, and one has failed if and only if the other has, for the
same cause and in the same line. -/
theorem release_simulates (a : Assembler) (source : String) :
    (a.assemble source .release).result = (a.assemble source .debug).result.map Program.released ∧
      ∀ p, (a.assemble source .debug).result = .ok p → p.target = .debug ∧
        ∀ (c : Capacities) (m m' : Machine δ) (options : LoadOptions), Sized c m → Sized c m' →
          m'.random = m.random → m'.slots = m.slots → m'.bench = m.bench → m.bench.Steady →
          let debug := (m.load p options).1
          let release := (m'.load p.released options).1
          (∀ n, ¬ FailedInAssert p (pace p n debug).1 →
            Agree (pace p n debug).1.textless (pace p.released n release).1) ∧
          ∀ s t, (debug.serve s).attempts = (release.serve t).attempts →
            ¬ FailedInAssert p (debug.serve s).machine →
            Agree (debug.serve s).machine.textless (release.serve t).machine := by
  refine ⟨Assembly.assemble_release a source, fun p hp => ⟨Assembly.target_of_assemble hp, ?_⟩⟩
  intro c m m' options hm hm' hrandom hslots hbench hsteady debug release
  have htarget := Assembly.target_of_assemble hp
  have hload : Matches debug release := load_matches hm hm' hrandom hslots hbench p options
  have hsteady' : debug.bench.Steady := by
    show (m.load p options).1.bench.Steady
    rw [load_eq]
    exact hsteady
  refine ⟨fun n hn => (pace_matches htarget hload hsteady' hn).agree, fun s t hst hs => ?_⟩
  have hdebug := serve_paces (program_load m p options) s
  have hrelease := serve_paces (program_load m' p.released options) t
  rw [← hst] at hrelease
  have hn : ¬ FailedInAssert p (pace p (debug.serve s).attempts debug).1 := by
    unfold FailedInAssert at hs ⊢
    rwa [hdebug.alike.failure, hdebug.alike.position] at hs
  exact ((pace_matches htarget hload hsteady' hn).of_alike hdebug.alike hrelease.alike).agree

end Work

/-- A program that writes to lasting cells, checks what is there and has a breakpoint. -/
def checking : Program where
  target := .debug
  instructions :=
    #[{ operation := .unary .move, destination := some (.device 0 1), left := some (.literal (.ofFloat 5)), line := 1,
        rawText := "mov d0.1 5", text := "mov d0.1 5" },
      { operation := .assert, destination := some (.device 0 1), left := some (.literal (.ofFloat 5)), line := 2,
        rawText := "assert d0.1 5", text := "assert d0.1 5" },
      { operation := .breakpoint, line := 3, rawText := "brk", text := "brk" },
      { operation := .ret, line := 4, rawText := "ret", text := "ret" }]

/-- Lasting cells and a screen. -/
def steadyBench : Bench Device where
  devices := #[some (.eeprom (.new 2)), some (.screen (.new 2 1))]

theorem steadyBench_steady : steadyBench.Steady := by
  intro place d hd
  have hmem := Array.mem_of_getElem? (Bench.getElem?_of_get? hd)
  obtain h | h : some d = some (.eeprom (.new 2)) ∨ some d = some (.screen (.new 2 1)) := by
    simpa [steadyBench] using hmem
  · cases h
    exact Device.steady_eeprom _
  · cases h
    exact Device.steady_screen _

/-- The program that debugs takes two calls, for it stops at the breakpoint, and the one for release takes one. -/
theorem release_simulates_checking :
    let m := (new ⟨1, 1, 1, 1⟩ 7 steadyBench).afterAll [.plug 0 0]
    let m' := (new ⟨1, 1, 1, 1⟩ 7 steadyBench).afterAll [.observe true, .plug 0 0]
    let debug := (m.load checking {}).1
    let release := (m'.load checking.released {}).1
    let s : List Call := [⟨0, 0, 9⟩, ⟨0, 0, 9⟩]
    let t : List Call := [⟨0, 0, 9⟩]
    (({} : Assembler).assemble "mov d0.1 5\nassert d0.1 5\nbrk\nret" .debug).result = .ok checking ∧
      (({} : Assembler).assemble "mov d0.1 5\nassert d0.1 5\nbrk\nret" .release).result = .ok checking.released ∧
      m.bench.Steady ∧ (debug.serve s).attempts = 4 ∧ (release.serve t).attempts = 4 ∧
      ¬ FailedInAssert checking (debug.serve s).machine ∧
      Agree (debug.serve s).machine.textless (release.serve t).machine := by
  intro m m' debug release s t
  have h : (({} : Assembler).assemble "mov d0.1 5\nassert d0.1 5\nbrk\nret" .debug).result = .ok checking :=
    Assembly.eq_ok_of_toOption (by decide +kernel)
  obtain ⟨hrelease, hsimulates⟩ :=
    release_simulates (δ := Device) ({} : Assembler) "mov d0.1 5\nassert d0.1 5\nbrk\nret"
  have hs : (debug.serve s).attempts = 4 := by decide +kernel
  have ht : (release.serve t).attempts = 4 := by decide +kernel
  have hfailure : (debug.serve s).machine.failure = none := by decide +kernel
  have hn : ¬ FailedInAssert checking (debug.serve s).machine := by
    rintro ⟨cause, location, i, hf, -⟩
    cases hfailure.symm.trans hf
  refine ⟨h, by rw [hrelease, h]; rfl, steadyBench_steady, hs, ht, hn, ?_⟩
  have hm : Sized ⟨1, 1, 1, 1⟩ m := sized_afterAll ..
  have hm' : Sized ⟨1, 1, 1, 1⟩ m' := sized_afterAll ..
  exact ((hsimulates checking h).2 _ m m' {} hm hm' rfl rfl rfl steadyBench_steady).2 s t (hs.trans ht.symm) hn

end Machine

end VirtualProcessor
