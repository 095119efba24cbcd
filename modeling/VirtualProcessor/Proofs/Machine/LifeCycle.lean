import VirtualProcessor.Proofs.Machine.Host
import VirtualProcessor.Proofs.Machine.Jump

/-!
# The life of a program

A host is told a `Report` by every call that loads a program or has it run. The status of a machine is spread over
its program, its failure, the position and the last outcome. `Lives` ties them to the reports: it is kept by all
that a host can do (`Lives.after`), given how a run can leave a machine (`answer_leaves`). Hence `life_cycle`: the
status is the one that the last result names. A machine that has failed or finished stays so until the next program
is loaded.
-/

namespace VirtualProcessor

/-- The status of a machine whose last run has come back with an outcome. -/
def Outcome.status : Outcome → Status
  | budgetExhausted => .running
  | yielded => .yielded
  | sleeping => .sleeping
  | breakpoint => .breakpoint
  | finished => .finished

theorem Outcome.status_eq_finished {o : Outcome} : o.status = .finished ↔ o = .finished := by
  cases o <;> decide

namespace Machine

variable {δ : Type}

/-! ## Reports -/

/-- What a host is told when it loads a program or has it run. -/
inductive Report where
  | loaded (short : Option Fault)
  | ran (ending : Ending)
deriving DecidableEq

namespace Report

def isLoad : Report → Bool
  | loaded _ => true
  | ran _ => false

/-- The result: the status it names, or an error. A run that breaks down has none. -/
def result? : Report → Option (Except Fault Status)
  | loaded none => some (.ok .loaded)
  | loaded (some fault) => some (.error fault)
  | ran (.outcome o) => some (.ok o.status)
  | ran (.fault fault) => some (.error fault)
  | ran .breakdown => none

/-- The last result there is. -/
def latest? (reports : List Report) : Option (Except Fault Status) := reports.reverse.findSome? result?

/-- The status that reports name: the one of the last result, as soon as a program was loaded. -/
def statusOf (reports : List Report) : Status :=
  if reports.any isLoad then
    match latest? reports with
    | some (.ok status) => status
    | _ => .errored
  else .unloaded

theorem latest?_concat (reports : List Report) (r : Report) :
    latest? (reports ++ [r]) = r.result?.or (latest? reports) := by
  rw [latest?, List.reverse_concat, List.findSome?_cons]
  cases r.result? <;> rfl

theorem any_isLoad_concat (reports : List Report) (r : Report) :
    (reports ++ [r]).any isLoad = (reports.any isLoad || r.isLoad) := by
  rw [List.any_append, List.any_cons, List.any_nil, Bool.or_false]

end Report

section Reports

variable [Peripheral δ]

def report? (m : Machine δ) : Move δ → Option Report
  | .load p options => some (.loaded (m.load p options).2.1)
  | .run c => some (.ran (m.answer c).ending)
  | _ => none

/-- All that a host is told, in order. -/
def reports (m : Machine δ) (moves : List (Move δ)) : List Report :=
  m.collect (fun m a => (m.report? a).toList) moves

end Reports

/-! ## How a run leaves a machine -/

/-- The status that a machine which has not failed owes to its last run. -/
def noted (m : Machine δ) : Status := (m.lastOutcome.map Outcome.status).getD .loaded

/-- How a run of a program leaves a machine that had noted `last`. -/
inductive Leaves (p : Program) (last : Option Outcome) (m : Machine δ) : Ending → Prop
  | outcome (o : Outcome) (hf : m.failure = none) (ho : m.lastOutcome = some o)
      (hb : m.breakpointReached = (o == .breakpoint)) (he : p.size ≤ m.position ↔ o = .finished) :
    Leaves p last m (.outcome o)
  | fault (fault : Fault) (hf : m.failure = some fault) (hb : m.breakpointReached = false) :
    Leaves p last m (.fault fault)
  | breakdown (hf : m.failure = none) (ho : m.lastOutcome = last) (hb : m.breakpointReached = false)
      (he : m.position < p.size) :
    Leaves p last m .breakdown

theorem leaves_settle {m : Machine δ} (hf : m.failure = none) {p : Program} {o : Outcome}
    (he : p.size ≤ m.position ↔ o = .finished) (last : Option Outcome) :
    Leaves p last (m.settle o) (.outcome o) :=
  .outcome o hf rfl rfl he

section Run

variable [Peripheral δ] {m : Machine δ} {p : Program}

/-- An instruction that ends the run leaves the program at its end only if it is `ret`, for behind every other one
there is an instruction. -/
theorem attempt_leaves (hret : p.EndsInRet) (hf : m.failure = none) (hb : m.breakpointReached = false)
    {i : Instruction} (hi : p.instructions[m.position]? = some i) (now : Nat) {ending : Ending}
    (h : (m.attempt p now i).ending = some ending) :
    Leaves p m.lastOutcome (m.attempt p now i).machine ending := by
  have hattempt := attempt_attempted m p now i
  generalize m.attempt p now i = a at h hattempt
  cases hattempt with
  | next => cases h
  | stop w wake flow o _ ho _ _ hrun =>
    cases h
    have hsuits := execute_suits p m.position now i m flow _ hrun
    refine leaves_settle (m := { m.worked p w wake flow with
      frame := m.frame + 1, watchdog := m.watchdog.map (· - 1) }) hf ?_ _
    show p.size ≤ flow.target m.position p.size ↔ o = .finished
    have hbehind (hop : i.operation ≠ .ret) (hne : o ≠ .finished) : p.size ≤ m.position + 1 ↔ o = .finished :=
      ⟨fun hle => absurd (hret.succ_lt_size hi hop) (Nat.not_lt.mpr hle), fun e => absurd e hne⟩
    generalize i.operation = op at hsuits hbehind
    cases hsuits with
    | next => cases ho
    | jump => cases ho
    | yield => cases ho; exact hbehind nofun nofun
    | sleep => cases ho; exact hbehind nofun nofun
    | breakpoint => cases ho; exact hbehind nofun nofun
    | ret =>
      cases ho
      exact ⟨fun _ => rfl, fun _ => Nat.le_refl _⟩
  | bark => cases h; exact .fault _ rfl hb
  | fault => cases h; exact .fault _ rfl hb
  | breakdown => cases h; exact .breakdown hf rfl hb (Array.getElem?_eq_some_iff.mp hi).1

theorem loop_leaves (hret : p.EndsInRet) (hf : m.failure = none) (hb : m.breakpointReached = false)
    (now budget : Nat) (ns : List Notice) (ss : List Snapshot) :
    Leaves p m.lastOutcome (loop p now budget m ns ss).machine (loop p now budget m ns ss).ending := by
  induction budget generalizing m ns ss with
  | zero =>
    refine leaves_settle hf ?_ _
    split
    · exact ⟨fun hle => absurd hle (by omega), nofun⟩
    · exact ⟨fun _ => rfl, fun _ => by omega⟩
  | succ budget ih =>
    unfold loop
    cases hi : p.instructions[m.position]? with
    | none =>
      exact leaves_settle hf ⟨fun _ => rfl, fun _ => Array.getElem?_eq_none_iff.mp hi⟩ _
    | some i =>
      simp only
      cases he : (m.attempt p now i).ending with
      | some ending => exact attempt_leaves hret hf hb hi now he
      | none =>
        obtain ⟨hinterlude, hf', -⟩ := (attempt_attempted m p now i).continues he
        have hlast : (m.attempt p now i).machine.lastOutcome = m.lastOutcome :=
          congrArg Interlude.lastOutcome hinterlude
        have hb' : (m.attempt p now i).machine.breakpointReached = m.breakpointReached :=
          congrArg Interlude.breakpointReached hinterlude
        rw [← hlast]
        exact ih (hf'.trans hf) (hb'.trans hb) _ _

theorem answer_leaves (hp : m.program = some p) (hret : p.EndsInRet) (hf : m.failure = none) (c : Call) :
    Leaves p m.lastOutcome (m.answer c).machine (m.answer c).ending := by
  unfold answer
  by_cases he : p.size ≤ m.position
  · rw [runDuring_atEnd hp hf he]
    exact leaves_settle hf ⟨fun _ => rfl, fun _ => he⟩ _
  cases ha : m.isAsleep c.start with
  | true =>
    rw [runDuring_asleep hp hf he ha]
    exact leaves_settle (o := .sleeping) hf ⟨fun hle => absurd hle he, nofun⟩ _
  | false =>
    rw [runDuring_awake hp hf he ha]
    exact loop_leaves (m := m.awakened) hret hf rfl _ _ _ _

theorem program_answer (hp : m.program = some p) (c : Call) : (m.answer c).machine.program = some p :=
  (runDuring_paces hp c.start c.later c.budget).program.trans hp

end Run

/-! ## The invariant -/

/-- The stage that the life of a machine is at, given what its host was told. -/
inductive Stage (reports : List Report) (m : Machine δ) : Prop
  | unloaded (hl : reports.any Report.isLoad = false) (hp : m.program = none) (hb : m.breakpointReached = false)
  | errored (hl : reports.any Report.isLoad = true) {p : Program} (hp : m.program = some p) {fault : Fault}
      (hf : m.failure = some fault) (hr : Report.latest? reports = some (.error fault))
      (hb : m.breakpointReached = false)
  | going (hl : reports.any Report.isLoad = true) {p : Program} (hp : m.program = some p) (hret : p.EndsInRet)
      (hf : m.failure = none) (he : p.size ≤ m.position ↔ m.noted = .finished)
      (hr : Report.latest? reports = some (.ok m.noted))

/-- What a machine knows is what its host was told. -/
structure Lives (reports : List Report) (m : Machine δ) : Prop where
  stage : Stage reports m
  reached : m.breakpointReached = true ↔ reports.getLast? = some (.ran (.outcome .breakpoint))

theorem lives_new (c : Capacities) (seed : UInt64) (bench : Bench δ) : Lives [] (new c seed bench) :=
  ⟨.unloaded rfl rfl rfl, ⟨nofun, nofun⟩⟩

theorem lives_concat {reports : List Report} {r : Report} {m : Machine δ} (h : Stage (reports ++ [r]) m)
    (hb : m.breakpointReached = decide (r = .ran (.outcome .breakpoint))) : Lives (reports ++ [r]) m := by
  refine ⟨h, ?_⟩
  rw [hb, List.getLast?_concat, decide_eq_true_iff, Option.some_inj]

/-- A machine that is going has the status that it has noted. -/
theorem status_going {m : Machine δ} {p : Program} (hp : m.program = some p) (hf : m.failure = none)
    (he : p.size ≤ m.position ↔ m.noted = .finished) : m.status = m.noted := by
  unfold status
  simp only [hp, hasFailed, hf, atEnd, Option.isNone_some, Option.isSome_none, Bool.false_eq_true, ↓reduceIte,
    decide_eq_true_eq]
  split
  · exact (he.mp ‹_›).symm
  · unfold noted
    cases m.lastOutcome with
    | none => rfl
    | some o => cases o <;> rfl

theorem status_errored {m : Machine δ} {p : Program} (hp : m.program = some p) {fault : Fault}
    (hf : m.failure = some fault) : m.status = .errored := by
  simp only [status, hp, hasFailed, hf, Option.isNone_some, Option.isSome_some, Bool.false_eq_true, ↓reduceIte]

theorem status_unloaded {m : Machine δ} (hp : m.program = none) : m.status = .unloaded := by
  simp only [status, hp, Option.isNone_none, ↓reduceIte]

theorem noted_ne_errored (m : Machine δ) : m.noted ≠ .errored := by
  unfold noted
  cases m.lastOutcome with
  | none => exact nofun
  | some o => cases o <;> exact nofun

theorem Stage.status_eq {reports : List Report} {m : Machine δ} (h : Stage reports m) :
    m.status = Report.statusOf reports := by
  unfold Report.statusOf
  cases h with
  | unloaded hl hp => simp only [status_unloaded hp, hl, Bool.false_eq_true, ↓reduceIte]
  | errored hl hp hf hr => simp only [status_errored hp hf, hl, hr, ↓reduceIte]
  | going hl hp _ hf he hr => simp only [status_going hp hf he, hl, hr, ↓reduceIte]

theorem Stage.of_finished {reports : List Report} {m : Machine δ} (h : Stage reports m)
    (hs : m.status = .finished) : ∃ p, m.program = some p ∧ m.failure = none ∧ p.size ≤ m.position := by
  cases h with
  | unloaded _ hp => cases (status_unloaded hp).symm.trans hs
  | errored _ hp hf => cases (status_errored hp hf).symm.trans hs
  | going _ hp _ hf he => exact ⟨_, hp, hf, he.mpr ((status_going hp hf he).symm.trans hs)⟩

theorem Stage.of_errored {reports : List Report} {m : Machine δ} (h : Stage reports m)
    (hs : m.status = .errored) :
    ∃ p fault, m.program = some p ∧ m.failure = some fault ∧ Report.latest? reports = some (.error fault) := by
  cases h with
  | unloaded _ hp => cases (status_unloaded hp).symm.trans hs
  | errored _ hp hf hr => exact ⟨_, _, hp, hf, hr⟩
  | going _ hp _ hf he => exact absurd ((status_going hp hf he).symm.trans hs) m.noted_ne_errored

/-- Once a program is loaded, it is over in the two stages that have no way on. -/
theorem Stage.isFinished_iff {reports : List Report} {m : Machine δ} (h : Stage reports m)
    (hl : reports.any Report.isLoad = true) :
    m.isFinished = true ↔ m.status = .finished ∨ m.status = .errored := by
  cases h with
  | unloaded hl' => cases hl.symm.trans hl'
  | errored _ hp hf =>
    simp only [status_errored hp hf, isFinished, hasFailed, hf, Option.isSome_some, Bool.true_or, or_true]
  | going _ hp _ hf he =>
    simp only [status_going hp hf he, isFinished, hasFailed, hf, atEnd, hp, Option.isSome_none, Bool.false_or,
      decide_eq_true_eq, he, m.noted_ne_errored, or_false]

/-! ## All that a host can do -/

/-- Handling a machine changes nothing of its life. -/
theorem Lives.handle {reports : List Report} {m m' : Machine δ} (h : Lives reports m) (hm : Handled m m') :
    Lives reports m' := by
  have hn : m'.noted = m.noted := hm.keeps _ fun _ _ _ _ _ _ => rfl
  have hb : m'.breakpointReached = m.breakpointReached := congrArg Interlude.breakpointReached hm.interlude
  refine ⟨?_, by rw [hb]; exact h.reached⟩
  cases h.stage with
  | unloaded hl hp hfalse => exact .unloaded hl (hm.program.trans hp) (hb.trans hfalse)
  | errored hl hp hf hr hfalse =>
    exact .errored hl (hm.program.trans hp) (hm.failure.trans hf) hr (hb.trans hfalse)
  | going hl hp hret hf he hr =>
    refine .going hl (hm.program.trans hp) hret (hm.failure.trans hf) ?_ ?_
    · rw [hm.position, hn]
      exact he
    · rw [hn]
      exact hr

theorem lives_load {p : Program} (hret : p.EndsInRet) (reports : List Report) (m : Machine δ)
    (options : LoadOptions) : Lives (reports ++ [.loaded (m.load p options).2.1]) (m.load p options).1 := by
  have hl (short : Option Fault) : (reports ++ [Report.loaded short]).any Report.isLoad = true :=
    (Report.any_isLoad_concat ..).trans (Bool.or_true _)
  rw [load_eq]
  simp only
  cases shortage? (m.reset p options).capacities p.requirements with
  | none =>
    refine lives_concat (.going (hl _) (p := p) rfl hret rfl ⟨fun hle => ?_, nofun⟩ ?_) rfl
    · exact absurd hret.size_pos (Nat.not_lt.mpr hle)
    · exact Report.latest?_concat ..
  | some fault => exact lives_concat (.errored (hl _) (p := p) rfl rfl (Report.latest?_concat ..) rfl) rfl

section Moves

variable [Peripheral δ]

theorem Lives.answer {reports : List Report} {m : Machine δ} (h : Lives reports m) (c : Call) :
    Lives (reports ++ [.ran (m.answer c).ending]) (m.answer c).machine := by
  have hl (e : Ending) : (reports ++ [Report.ran e]).any Report.isLoad = reports.any Report.isLoad :=
    (Report.any_isLoad_concat ..).trans (Bool.or_false _)
  have hlatest (e : Ending) := Report.latest?_concat reports (.ran e)
  cases h.stage with
  | unloaded hl₀ hp hb =>
    unfold Machine.answer
    rw [runDuring_unloaded hp]
    exact lives_concat (.unloaded ((hl _).trans hl₀) hp hb) hb
  | errored hl₀ hp hf hr hb =>
    unfold Machine.answer
    rw [runDuring_failed hp hf]
    exact lives_concat (.errored ((hl _).trans hl₀) hp hf (hlatest _) hb) hb
  | @going hl₀ p hp hret hf he hr =>
    have hp' := program_answer hp c
    have hleaves := answer_leaves hp hret hf c
    -- A program that is at its end does not break down.
    have hend : (m.answer c).ending = .breakdown → ¬ p.size ≤ m.position := by
      intro hbreak hle
      unfold Machine.answer at hbreak
      rw [runDuring_atEnd hp hf hle] at hbreak
      cases hbreak
    generalize (m.answer c).machine = m', (m.answer c).ending = ending at hp' hleaves hend
    cases hleaves with
    | outcome o hf' ho hb he' =>
      have hnoted : m'.noted = o.status := by
        rw [noted, ho]
        rfl
      refine lives_concat (.going ((hl _).trans hl₀) hp' hret hf' ?_ ?_) ?_
      · rw [he', hnoted, Outcome.status_eq_finished]
      · rw [hlatest, hnoted]
        rfl
      · rw [hb]
        cases o <;> rfl
    | fault fault hf' hb => exact lives_concat (.errored ((hl _).trans hl₀) hp' hf' (hlatest _) hb) hb
    | breakdown hf' ho hb he' =>
      have hnoted : m'.noted = m.noted := by
        rw [noted, ho]
        rfl
      refine lives_concat (.going ((hl _).trans hl₀) hp' hret hf' ?_ ?_) hb
      · rw [hnoted, ← he]
        exact ⟨fun hle => absurd he' (Nat.not_lt.mpr hle), fun hle => absurd hle (hend rfl)⟩
      · rw [hlatest, hnoted]
        exact hr

theorem Lives.after {reports : List Report} {m : Machine δ} (h : Lives reports m) {a : Move δ}
    (hret : ∀ p options, a = .load p options → p.EndsInRet) :
    Lives (reports ++ (m.report? a).toList) (m.after a) := by
  cases a with
  | load p options => exact lives_load (hret p options rfl) reports m options
  | run c => exact h.answer c
  | _ =>
    show Lives (reports ++ []) _
    rw [List.append_nil]
    exact h.handle (handled_after m rfl)

theorem Lives.afterAll {reports : List Report} {m : Machine δ} (h : Lives reports m) {moves : List (Move δ)}
    (hret : ∀ p options, Move.load p options ∈ moves → p.EndsInRet) :
    Lives (reports ++ m.reports moves) (m.afterAll moves) := by
  induction moves generalizing m reports with
  | nil =>
    rw [Machine.reports, collect, List.append_nil]
    exact h
  | cons a rest ih =>
    rw [Machine.reports, collect, ← List.append_assoc]
    refine ih (h.after fun p options e => ?_) fun p options hmem => ?_
    · exact hret p options (e ▸ List.mem_cons_self)
    · exact hret p options (List.mem_cons_of_mem a hmem)

/-! ## What is over stays over -/

/-- Until a program is loaded, one that is at its end stays there. -/
theorem finished_kept (p : Program) :
    Kept (δ := δ) (fun _ => False) fun m => m.program = some p ∧ m.failure = none ∧ p.size ≤ m.position where
  load hL _ _ := hL.elim
  attempt {m q i} hq _ hi now h := by
    obtain ⟨hp, -, he⟩ := h
    cases hp.symm.trans hq
    exact absurd (Array.getElem?_eq_some_iff.mp hi).1 (Nat.not_lt.mpr he)
  interlude _ h := h
  unloaded hp h := by
    cases hp.symm.trans h.1
  handle hm h := ⟨hm.program.trans h.1, hm.failure.trans h.2.1, by rw [hm.position]; exact h.2.2⟩

/-- Until a program is loaded, one that has failed keeps its fault. -/
theorem errored_kept (p : Program) (fault : Fault) :
    Kept (δ := δ) (fun _ => False) fun m => m.program = some p ∧ m.failure = some fault where
  load hL _ _ := hL.elim
  attempt _ hf _ _ h := by
    cases hf.symm.trans h.2
  interlude _ h := h
  unloaded hp h := by
    cases hp.symm.trans h.1
  handle hm h := ⟨hm.program.trans h.1, hm.failure.trans h.2⟩

/-- Whatever a host does, provided that all programs end in `ret`, as they do when they are assembled:

* the status is `unloaded` until a program is loaded, and then the one that the last result names;
* a breakpoint is reached if and only if the last report is that of a run that stopped there;
* once a program is loaded, it is over if and only if it has finished or failed;
* and then, until the next one is loaded, every run comes back with the same result and does nothing. -/
theorem life_cycle (c : Capacities) (seed : UInt64) (bench : Bench δ) (moves : List (Move δ))
    (hret : ∀ p options, Move.load p options ∈ moves → p.EndsInRet) :
    let m := (new c seed bench).afterAll moves
    let reports := (new c seed bench).reports moves
    m.status = Report.statusOf reports ∧
      (m.breakpointReached = true ↔ reports.getLast? = some (.ran (.outcome .breakpoint))) ∧
      (reports.any Report.isLoad = true →
        (m.isFinished = true ↔ m.status = .finished ∨ m.status = .errored)) ∧
      (m.status = .finished → ∀ more, (∀ p options, Move.load p options ∉ more) → ∀ call,
        let m' := m.afterAll more
        m'.answer call = ⟨m'.settle .finished, .outcome .finished, [], []⟩) ∧
      (m.status = .errored → ∃ fault, Report.latest? reports = some (.error fault) ∧
        ∀ more, (∀ p options, Move.load p options ∉ more) → ∀ call,
          let m' := m.afterAll more
          m'.answer call = ⟨m', .fault fault, [], []⟩) ∧
      ∀ (a : Assembler) (source : String) (target : BuildTarget) (p : Program),
        (a.assemble source target).result = .ok p → p.EndsInRet := by
  intro m reports
  have hlives : Lives reports m := (lives_new c seed bench).afterAll hret
  refine ⟨hlives.stage.status_eq, hlives.reached, hlives.stage.isFinished_iff,
    fun hfinished more hmore call => ?_, fun herrored => ?_,
    fun a source target p => Assembly.endsInRet_of_assemble⟩
  · obtain ⟨p, hover⟩ := hlives.stage.of_finished hfinished
    obtain ⟨hp, hf, he⟩ := (finished_kept p).afterAll hover hmore
    exact runDuring_atEnd hp hf he ..
  · obtain ⟨p, fault, hp, hf, hr⟩ := hlives.stage.of_errored herrored
    refine ⟨fault, hr, fun more hmore call => ?_⟩
    obtain ⟨hp', hf'⟩ := (errored_kept p fault).afterAll ⟨hp, hf⟩ hmore
    exact runDuring_failed hp' hf' ..

end Moves

/-- A program with a breakpoint. -/
def stopping : Program where
  target := .debug
  instructions := #[{ operation := .breakpoint, line := 1 }, { operation := .ret, line := 2 }]

/-- A run before anything is loaded, one up to the breakpoint and one to the end, after which every run finds the
program at its end. -/
theorem life_cycle_stopping :
    let call : Call := ⟨0, 0, 9⟩
    let moves : List (Move Device) := [.run call, .load stopping {}, .run call, .push 1, .run call]
    let m := (new ⟨1, 1, 1, 1⟩ 7 {}).afterAll moves
    (∀ p options, Move.load p options ∈ moves → p.EndsInRet) ∧
      (new ⟨1, 1, 1, 1⟩ 7 {}).reports moves =
        [.ran (.fault .notLoaded), .loaded none, .ran (.outcome .breakpoint), .ran (.outcome .finished)] ∧
      m.status = .finished ∧ m.breakpointReached = false ∧ m.isFinished = true ∧
      (m.afterAll [.pop]).answer call = ⟨(m.afterAll [.pop]).settle .finished, .outcome .finished, [], []⟩ := by
  intro call moves m
  have hret : ∀ p options, Move.load p options ∈ moves → p.EndsInRet := by
    intro p options hmem
    obtain ⟨rfl, -⟩ : p = stopping ∧ options = {} := by simpa [moves] using hmem
    exact ⟨_, rfl, rfl⟩
  have hreports : (new ⟨1, 1, 1, 1⟩ 7 {}).reports moves =
      [.ran (.fault .notLoaded), .loaded none, .ran (.outcome .breakpoint), .ran (.outcome .finished)] := by
    decide +kernel
  obtain ⟨hstatus, hreached, hover, hfinished, -⟩ := life_cycle ⟨1, 1, 1, 1⟩ 7 {} moves hret
  rw [hreports] at hstatus hreached hover
  refine ⟨hret, hreports, hstatus, ?_, ?_, ?_⟩
  · exact Bool.eq_false_iff.mpr fun hb => by cases hreached.mp hb
  · exact (hover rfl).mpr (.inl hstatus)
  · exact hfinished hstatus [.pop] (by simp) call

end Machine

end VirtualProcessor
