import VirtualProcessor.Machine.Execute

/-!
# Runs

A run attempts instructions one after the other until the budget is used up, the program stops for a
while, ends or fails. A machine that has failed or ended stays so until the next program is loaded.
-/

namespace VirtualProcessor.Machine

/-- How a run ends. -/
inductive Ending where
  | outcome (o : Outcome)
  | fault (f : Fault)
  /-- The run has broken down; the machine is not to be used again. -/
  | breakdown
deriving DecidableEq, Repr

/-- One attempt at an instruction: the machine after it, how the run ends if it ends here, and what was
reported and shown. -/
structure Attempt (δ : Type) where
  machine : Machine δ
  ending : Option Ending
  notices : List Notice
  snapshots : List Snapshot

/-- A run as the host sees it. -/
structure Run (δ : Type) where
  machine : Machine δ
  ending : Ending
  notices : List Notice
  snapshots : List Snapshot

variable {δ : Type}

def locationOf (i : Instruction) : Location := ⟨i.line, i.rawText⟩

/-- Keeps a fault. -/
def latch (m : Machine δ) (fault : Fault) : Machine δ := { m with failure := some fault }

/-- Notes the outcome of a run. -/
def settle (m : Machine δ) (outcome : Outcome) : Machine δ :=
  { m with breakpointReached := outcome == .breakpoint, lastOutcome := some outcome }

/-- Moves on after a completed instruction. -/
def advance (m : Machine δ) (size : Nat) : Flow → Machine δ
  | .next => { m with position := m.position + 1 }
  | .jump position => { m with position }
  | .suspend _ => { m with position := m.position + 1 }
  | .finish => { m with position := size }

/-- The outcome with which an instruction ends the run. -/
def Flow.outcome? : Flow → Option Outcome
  | .suspend outcome => some outcome
  | .finish => some .finished
  | _ => none

/-- What follows the work of a completed instruction: the host is shown the machine, the instruction is
counted, and the watchdog is asked. -/
def complete (m : Machine δ) (i : Instruction) (flow : Flow) (report : Notice) : Attempt δ :=
  let snapshots := if m.observed then [m.snapshot i] else []
  let counted := { m with frame := m.frame + 1 }
  match m.watchdog with
  | some 0 =>
    let fault := Fault.failed .watchdogBark (locationOf i)
    ⟨counted.latch fault, some (.fault fault), [report, .barked i.line, .halted fault], snapshots⟩
  | watchdog =>
    let watched := { counted with watchdog := watchdog.map (· - 1) }
    match flow.outcome? with
    | some outcome => ⟨watched.settle outcome, some (.outcome outcome), [report], snapshots⟩
    | none => ⟨watched, none, [report], snapshots⟩

variable [Peripheral δ]

/-- Attempts one instruction. -/
def attempt (m : Machine δ) (p : Program) (now : Nat) (i : Instruction) : Attempt δ :=
  let report := Notice.step m.frame i
  match (execute p m.position now i).run m with
  | .ok flow m => complete (m.advance p.size flow) i flow report
  | .error (.fault cause) m =>
    let fault := Fault.failed cause (locationOf i)
    ⟨m.latch fault, some (.fault fault), [report, .halted fault], []⟩
  | .error .emptyRange m => ⟨m, some .breakdown, [report], []⟩

/-- Attempts up to `budget` instructions. What was reported and shown before is carried along, newest
first. -/
def loop (p : Program) (now : Nat) : (budget : Nat) → Machine δ → List Notice → List Snapshot → Run δ
  | 0, m, notices, snapshots =>
    let outcome := if m.position < p.size then Outcome.budgetExhausted else .finished
    ⟨m.settle outcome, .outcome outcome, notices.reverse, snapshots.reverse⟩
  | budget + 1, m, notices, snapshots =>
    match p.instructions[m.position]? with
    | none => ⟨m.settle .finished, .outcome .finished, notices.reverse, snapshots.reverse⟩
    | some i =>
      let a := m.attempt p now i
      match a.ending with
      | some ending =>
        ⟨a.machine, ending, (a.notices.reverse ++ notices).reverse,
          (a.snapshots.reverse ++ snapshots).reverse⟩
      | none =>
        loop p now budget a.machine (a.notices.reverse ++ notices) (a.snapshots.reverse ++ snapshots)

/-- Whether a sleep is pending. -/
def isAsleep (m : Machine δ) (now : Nat) : Bool :=
  match m.wakeAt with
  | some deadline => now < deadline
  | none => false

/-- Runs the program for at most `budget` instructions. Whether a pending sleep is over is judged at the
start; a sleep that begins in this run is counted from a time that may be later. -/
def runDuring (m : Machine δ) (start later budget : Nat) : Run δ :=
  match m.program with
  | none => ⟨m.latch .notLoaded, .fault .notLoaded, [.halted .notLoaded], []⟩
  | some p =>
    match m.failure with
    | some fault => ⟨m, .fault fault, [], []⟩
    | none =>
      if p.size ≤ m.position then ⟨m.settle .finished, .outcome .finished, [], []⟩
      else if m.isAsleep start then ⟨m.settle .sleeping, .outcome .sleeping, [], []⟩
      else loop p later budget { m with wakeAt := none, breakpointReached := false } [] []

/-- Runs the program for at most `budget` instructions, all at one time. -/
def run (m : Machine δ) (now budget : Nat) : Run δ := m.runDuring now now budget

end VirtualProcessor.Machine
