import Mathlib.Logic.Relation
import VirtualProcessor.Machine.Execute

/-!
# What an instruction can see and change

Three views of a machine: its `Workspace` is what instructions work on, its `Surroundings` are what they neither
see nor change, and among these its `Interlude` is what it keeps from one run to the next for the host alone.
`Workspace.Change` lists the single changes that there are. Every part of an instruction but falling asleep is
`Plain`: it makes some of these changes and does not look at the surroundings. Hence

* `execute_suits`: how a program goes on is a matter of the operation;
* `execute_working`: whatever an instruction does to the workspace comes of single changes;
* `execute_ok`, `execute_error`: an instruction changes nothing outside the workspace but the end of a
  sleep, and that only when it ends the run;
* `execute_parallel`: from machines that differ only in their interludes an instruction does the same,
  whatever the time.
-/

namespace VirtualProcessor.Machine

variable {δ : Type} {α β : Type}

/-! ## Views of a machine -/

/-- What instructions work on. -/
structure Workspace (δ : Type) where
  registers : Array Float
  stack : Array Float
  memory : Arena
  stackPointer : UInt32
  returnAddress : UInt32
  random : Random.Generator
  bench : Bench δ

/-- What a machine keeps from one run to the next for the host alone. -/
structure Interlude where
  wakeAt : Option Nat
  breakpointReached : Bool
  lastOutcome : Option Outcome

/-- What is around an instruction and no business of it: the slots and the index of lines are not part of it,
for an instruction looks at them. -/
structure Surroundings where
  position : Nat
  frame : UInt32
  wakeAt : Option Nat
  watchdog : Option Nat
  breakpointReached : Bool
  lastOutcome : Option Outcome
  failure : Option Fault
  program : Option Program
  observed : Bool

def workspace (m : Machine δ) : Workspace δ :=
  ⟨m.registers, m.stack, m.memory, m.stackPointer, m.returnAddress, m.random, m.bench⟩

def interlude (m : Machine δ) : Interlude := ⟨m.wakeAt, m.breakpointReached, m.lastOutcome⟩

def surroundings (m : Machine δ) : Surroundings :=
  ⟨m.position, m.frame, m.wakeAt, m.watchdog, m.breakpointReached, m.lastOutcome, m.failure, m.program,
    m.observed⟩

def withWorkspace (m : Machine δ) (w : Workspace δ) : Machine δ :=
  { m with
    registers := w.registers
    stack := w.stack
    memory := w.memory
    stackPointer := w.stackPointer
    returnAddress := w.returnAddress
    random := w.random
    bench := w.bench }

def withInterlude (m : Machine δ) (h : Interlude) : Machine δ :=
  { m with
    wakeAt := h.wakeAt
    breakpointReached := h.breakpointReached
    lastOutcome := h.lastOutcome }

def withSurroundings (m : Machine δ) (s : Surroundings) : Machine δ :=
  { m with
    position := s.position
    frame := s.frame
    wakeAt := s.wakeAt
    watchdog := s.watchdog
    breakpointReached := s.breakpointReached
    lastOutcome := s.lastOutcome
    failure := s.failure
    program := s.program
    observed := s.observed }

/-! ## Changes of the workspace -/

section Changes

variable [Peripheral δ]

/-- A single change of the workspace. -/
inductive Workspace.Change (w : Workspace δ) : Workspace δ → Prop
  | register (index : Nat) (value : Float) :
    Change w { w with registers := w.registers.setIfInBounds index value }
  | cell (index : Nat) (value : Float) : Change w { w with stack := w.stack.setIfInBounds index value }
  | stackPointer (value : UInt32) : Change w { w with stackPointer := value }
  | returnAddress (value : UInt32) : Change w { w with returnAddress := value }
  | random (generator : Random.Generator) : Change w { w with random := generator }
  | allocate {length : Float} {base : Nat} {memory : Arena}
      (h : w.memory.allocate length = .ok (base, memory)) : Change w { w with memory }
  | free {pointer : Float} {memory : Arena} (h : w.memory.free pointer = .ok memory) :
    Change w { w with memory }
  | store {pointer value : Float} {memory : Arena} (h : w.memory.store pointer value = .ok memory) :
    Change w { w with memory }
  | deviceRead (place : Nat) (index : UInt16) :
    Change w { w with bench := (w.bench.read place index).1 }
  | deviceWrite (place : Nat) (index : UInt16) (value : Float) :
    Change w { w with bench := (w.bench.write place index value).1 }

/-- Changes of the workspace one after the other. -/
abbrev Workspace.Changes : Workspace δ → Workspace δ → Prop := Relation.ReflTransGen Workspace.Change

end Changes

/-! ## Plain actions -/

/-- The machine in which an action ends. -/
def finalOf : EStateM.Result Trouble (Machine δ) α → Machine δ
  | .ok _ m => m
  | .error _ m => m

/-- The same result with another interlude. -/
def resultWith (h : Interlude) :
    EStateM.Result Trouble (Machine δ) α → EStateM.Result Trouble (Machine δ) α
  | .ok a m => .ok a (m.withInterlude h)
  | .error e m => .error e (m.withInterlude h)

/-- The same result in other surroundings. -/
def resultIn (s : Surroundings) :
    EStateM.Result Trouble (Machine δ) α → EStateM.Result Trouble (Machine δ) α
  | .ok a m => .ok a (m.withSurroundings s)
  | .error e m => .error e (m.withSurroundings s)

section Plain

variable [Peripheral δ]

/-- An action that makes changes of the workspace only, whether it fails or not, and does not look at the
surroundings. -/
structure Plain (x : Action δ α) : Prop where
  changes (m : Machine δ) :
    ∃ w, finalOf (x.run m) = m.withWorkspace w ∧ Workspace.Changes m.workspace w
  apart (m : Machine δ) (s : Surroundings) : x.run (m.withSurroundings s) = resultIn s (x.run m)

/-- The interlude is part of the surroundings. -/
theorem Plain.blind {x : Action δ α} (hx : Plain x) (m : Machine δ) (h : Interlude) :
    x.run (m.withInterlude h) = resultWith h (x.run m) := by
  obtain ⟨w, hw, -⟩ := hx.changes m
  have ha := hx.apart m (m.withInterlude h).surroundings
  cases e : x.run m with
  | ok a m₁ =>
    rw [e] at hw ha
    obtain rfl : m₁ = m.withWorkspace w := hw
    exact ha
  | error t m₁ =>
    rw [e] at hw ha
    obtain rfl : m₁ = m.withWorkspace w := hw
    exact ha

theorem Plain.pure (a : α) : Plain (pure a : Action δ α) :=
  ⟨fun m => ⟨m.workspace, rfl, .refl⟩, fun _ _ => rfl⟩

theorem Plain.throw (e : Trouble) : Plain (throw e : Action δ α) :=
  ⟨fun m => ⟨m.workspace, rfl, .refl⟩, fun _ _ => rfl⟩

theorem Plain.fail (cause : Fault.Cause) : Plain (fail cause : Action δ α) := Plain.throw _

theorem Plain.attemptTo (r : Except Fault.Cause α) : Plain (attemptTo r : Action δ α) := by
  cases r with
  | ok a => exact Plain.pure a
  | error cause => exact Plain.fail cause

theorem Plain.bind {x : Action δ α} {f : α → Action δ β} (hx : Plain x) (hf : ∀ a, Plain (f a)) :
    Plain (x >>= f) := by
  refine ⟨fun m => ?_, fun m s => ?_⟩
  · obtain ⟨w, hw, hc⟩ := hx.changes m
    rw [EStateM.run_bind]
    cases e : x.run m with
    | ok a m₁ =>
      rw [e] at hw
      obtain rfl : m₁ = m.withWorkspace w := hw
      obtain ⟨w₂, hw₂, hc₂⟩ := (hf a).changes (m.withWorkspace w)
      exact ⟨w₂, hw₂, hc.trans hc₂⟩
    | error t m₁ =>
      rw [e] at hw
      exact ⟨w, hw, hc⟩
  · rw [EStateM.run_bind, EStateM.run_bind, hx.apart]
    cases x.run m with
    | ok a m₁ => exact (hf a).apart m₁ s
    | error t m₁ => rfl

/-- An action may hang on what is not among the surroundings of the machine it starts from. -/
theorem Plain.get_bind {f : Machine δ → Action δ α} (h₀ : ∀ m s, f (withSurroundings m s) = f m)
    (hf : ∀ m, Plain (f m)) : Plain (get >>= f) := by
  refine ⟨fun m => (hf m).changes m, fun m s => ?_⟩
  show (f (m.withSurroundings s)).run _ = resultIn s ((f m).run m)
  rw [h₀]
  exact (hf m).apart m s

/-- A change that can be made to any workspace. -/
theorem Plain.modify {f : Machine δ → Machine δ} (g : Workspace δ → Workspace δ)
    (hf : ∀ m, f m = m.withWorkspace (g m.workspace)) (hg : ∀ w, Workspace.Change w (g w)) :
    Plain (modify f : Action δ PUnit) := by
  refine ⟨fun m => ⟨g m.workspace, hf m, .single (hg _)⟩, fun m s => ?_⟩
  show EStateM.Result.ok PUnit.unit (f (m.withSurroundings s)) = .ok PUnit.unit ((f m).withSurroundings s)
  rw [hf, hf]
  rfl

theorem Plain.ite {c : Prop} [Decidable c] {x y : Action δ α} (hx : Plain x) (hy : Plain y) :
    Plain (if c then x else y) := by
  split
  · exact hx
  · exact hy

/-- A plain action that does not fail has changed the workspace and nothing else. -/
theorem Plain.eq_of_ok {x : Action δ α} (hx : Plain x) {m m' : Machine δ} {a : α}
    (h : x.run m = .ok a m') : ∃ w, m' = m.withWorkspace w := by
  obtain ⟨w, hw, -⟩ := hx.changes m
  rw [h] at hw
  exact ⟨w, hw⟩

/-- So has one that fails. -/
theorem Plain.eq_of_error {x : Action δ α} (hx : Plain x) {m m' : Machine δ} {t : Trouble}
    (h : x.run m = .error t m') : ∃ w, m' = m.withWorkspace w := by
  obtain ⟨w, hw, -⟩ := hx.changes m
  rw [h] at hw
  exact ⟨w, hw⟩

/-- An action that changes the workspace step by step, whatever else it does. -/
def Working (x : Action δ α) : Prop := ∀ m, Workspace.Changes m.workspace (finalOf (x.run m)).workspace

theorem Plain.working {x : Action δ α} (hx : Plain x) : Working x := by
  intro m
  obtain ⟨w, hw, hc⟩ := hx.changes m
  rw [hw]
  exact hc

theorem Working.bind {x : Action δ α} {f : α → Action δ β} (hx : Working x) (hf : ∀ a, Working (f a)) :
    Working (x >>= f) := by
  intro m
  have hm := hx m
  rw [EStateM.run_bind]
  cases e : x.run m with
  | ok a m₁ =>
    rw [e] at hm
    exact hm.trans (hf a m₁)
  | error t m₁ =>
    rw [e] at hm
    exact hm

end Plain

/-! ## Results -/

/-- A result of two actions in a row that do not fail. -/
theorem run_bind_ok {x : Action δ α} {f : α → Action δ β} {m m' : Machine δ} {b : β}
    (h : (x >>= f).run m = .ok b m') : ∃ a m₁, x.run m = .ok a m₁ ∧ (f a).run m₁ = .ok b m' := by
  rw [EStateM.run_bind] at h
  cases e : x.run m with
  | ok a m₁ => exact ⟨a, m₁, rfl, by rwa [e] at h⟩
  | error t m₁ => rw [e] at h; cases h

/-- Of two actions in a row the first fails or the second does. -/
theorem run_bind_error {x : Action δ α} {f : α → Action δ β} {m m' : Machine δ} {t : Trouble}
    (h : (x >>= f).run m = .error t m') :
    x.run m = .error t m' ∨ ∃ a m₁, x.run m = .ok a m₁ ∧ (f a).run m₁ = .error t m' := by
  rw [EStateM.run_bind] at h
  cases e : x.run m with
  | ok a m₁ => exact .inr ⟨a, m₁, rfl, by rwa [e] at h⟩
  | error t' m₁ => rw [e] at h; cases h; exact .inl rfl

/-- An action whose result, if there is one, is as `P` says. -/
def Returns (P : α → Prop) (x : Action δ α) : Prop := ∀ m a m', x.run m = .ok a m' → P a

theorem Returns.pure {P : α → Prop} {a : α} (h : P a) : Returns P (pure a : Action δ α) := by
  intro m b m' e
  cases e
  exact h

theorem Returns.fail {P : α → Prop} (cause : Fault.Cause) : Returns P (fail cause : Action δ α) := by
  intro m b m' e
  cases e

theorem Returns.bind {P : β → Prop} {x : Action δ α} {f : α → Action δ β} (hf : ∀ a, Returns P (f a)) :
    Returns P (x >>= f) := by
  intro m b m' e
  obtain ⟨a, m₁, -, h⟩ := run_bind_ok e
  exact hf a m₁ b m' h

theorem Returns.ite {P : α → Prop} {c : Prop} [Decidable c] {x y : Action δ α} (hx : Returns P x)
    (hy : Returns P y) : Returns P (if c then x else y) := by
  split
  · exact hx
  · exact hy

/-! ## The same action on two machines -/

/-- Two results that are the same but for the interludes, which are as `Q` says. -/
inductive SameResult (Q : Interlude → Interlude → Prop) :
    EStateM.Result Trouble (Machine δ) α → EStateM.Result Trouble (Machine δ) α → Prop
  | ok (a : α) (m : Machine δ) {h h' : Interlude} (hQ : Q h h') :
    SameResult Q (.ok a (m.withInterlude h)) (.ok a (m.withInterlude h'))
  | error (t : Trouble) (m : Machine δ) {h h' : Interlude} (hQ : Q h h') :
    SameResult Q (.error t (m.withInterlude h)) (.error t (m.withInterlude h'))

/-- Two actions that do the same on machines that are the same but for the interludes. -/
def Parallel (Q : Interlude → Interlude → Prop) (x y : Action δ α) : Prop :=
  ∀ m h h', Q h h' → SameResult Q (x.run (withInterlude m h)) (y.run (withInterlude m h'))

theorem Parallel.bind {Q : Interlude → Interlude → Prop} {x y : Action δ α} {f g : α → Action δ β}
    (hxy : Parallel Q x y) (hfg : ∀ a, Parallel Q (f a) (g a)) : Parallel Q (x >>= f) (y >>= g) := by
  intro m h h' hQ
  have hr := hxy m h h' hQ
  rw [EStateM.run_bind, EStateM.run_bind]
  generalize x.run (m.withInterlude h) = r at hr ⊢
  generalize y.run (m.withInterlude h') = r' at hr ⊢
  cases hr with
  | ok a m₁ hQ₁ => exact hfg a m₁ _ _ hQ₁
  | error t m₁ hQ₁ => exact .error t m₁ hQ₁

theorem Plain.parallel [Peripheral δ] {x : Action δ α} (hx : Plain x) (Q : Interlude → Interlude → Prop) :
    Parallel Q x x := by
  intro m h h' hQ
  rw [hx.blind, hx.blind]
  cases x.run m with
  | ok a m₁ => exact .ok a m₁ hQ
  | error t m₁ => exact .error t m₁ hQ

/-! ## Parts of an instruction -/

section Parts

variable [Peripheral δ]

theorem placeOf_plain (slot : UInt16) : Plain (placeOf slot : Action δ Nat) := by
  refine Plain.get_bind (fun _ _ => rfl) fun m => ?_
  split
  · exact Plain.fail _
  · exact Plain.fail _
  · exact Plain.pure _

omit [Peripheral δ] in
theorem run_get_bind (f : Machine δ → Action δ α) (m : Machine δ) :
    (get >>= f : Action δ α).run m = (f m).run m := rfl

omit [Peripheral δ] in
theorem popValue_run (m : Machine δ) :
    (popValue : Action δ Float).run m =
      match m.top? with
      | some value => .ok value { m with stackPointer := m.stackPointer - 1 }
      | none => .error (.fault .stackOverflow) m := by
  rw [popValue, run_get_bind]
  cases h : m.top? with
  | some value => simp only [pop, h, Option.map_some]; rfl
  | none => simp only [pop, h, Option.map_none]; rfl

theorem popValue_plain : Plain (popValue : Action δ Float) := by
  refine ⟨fun m => ?_, fun m s => ?_⟩
  · rw [popValue_run]
    split
    · exact ⟨_, rfl, .single (.stackPointer (m.stackPointer - 1))⟩
    · exact ⟨m.workspace, rfl, .refl⟩
  · rw [popValue_run, popValue_run, show (m.withSurroundings s).top? = m.top? from rfl]
    cases m.top? with
    | some value => rfl
    | none => rfl

omit [Peripheral δ] in
theorem pushValue_run (value : Float) (m : Machine δ) :
    (pushValue value : Action δ Unit).run m =
      if m.stackPointer.toNat < m.stack.size then
        .ok ()
          { m with
            stack := m.stack.setIfInBounds m.stackPointer.toNat value
            stackPointer := m.stackPointer + 1 }
      else .error (.fault .stackOverflow) m := by
  rw [pushValue, run_get_bind]
  by_cases h : m.stackPointer.toNat < m.stack.size
  · simp only [push, h, ↓reduceIte]; rfl
  · simp only [push, h, ↓reduceIte]; rfl

theorem pushValue_plain (value : Float) : Plain (pushValue value : Action δ Unit) := by
  refine ⟨fun m => ?_, fun m s => ?_⟩
  · rw [pushValue_run]
    split
    · have hcell : Workspace.Changes m.workspace _ := .single (.cell m.stackPointer.toNat value)
      exact ⟨_, rfl, hcell.tail (.stackPointer (m.stackPointer + 1))⟩
    · exact ⟨m.workspace, rfl, .refl⟩
  · rw [pushValue_run, pushValue_run,
      show (m.withSurroundings s).stackPointer = m.stackPointer from rfl,
      show (m.withSurroundings s).stack = m.stack from rfl]
    split
    · rfl
    · rfl

theorem peekValue_plain : Plain (peekValue : Action δ Float) := by
  refine Plain.get_bind (fun _ _ => rfl) fun m => ?_
  split
  · exact Plain.pure _
  · exact Plain.fail _

theorem setRandom_plain (generator : Random.Generator) :
    Plain (modify fun m => { m with random := generator } : Action δ PUnit) :=
  Plain.modify (fun w => { w with random := generator }) (fun _ => rfl) fun _ => .random generator

theorem drawReal_plain (low high : Float) : Plain (drawReal low high : Action δ Float) := by
  refine Plain.ite (Plain.fail _) (Plain.get_bind (fun _ _ => rfl) fun m => ?_)
  exact Plain.bind (setRandom_plain _) fun _ => Plain.pure _

theorem drawInteger_plain (low high : Float) : Plain (drawInteger low high : Action δ Float) := by
  refine Plain.ite (Plain.fail _) (Plain.ite (Plain.throw _) (Plain.get_bind (fun _ _ => rfl) fun m => ?_))
  exact Plain.bind (setRandom_plain _) fun _ => Plain.pure _

omit [Peripheral δ] in
theorem allocateBlock_run (length : Float) (m : Machine δ) :
    (allocateBlock length : Action δ Float).run m =
      match m.memory.allocate length with
      | .ok (base, memory) => .ok (Float.ofNat base) { m with memory }
      | .error refusal => .error (.fault (.ofRefusal refusal)) m := by
  rw [allocateBlock, run_get_bind]
  cases m.memory.allocate length with
  | ok taken => rfl
  | error refusal => rfl

theorem allocateBlock_plain (length : Float) : Plain (allocateBlock length : Action δ Float) := by
  refine ⟨fun m => ?_, fun m s => ?_⟩
  · rw [allocateBlock_run]
    cases h : m.memory.allocate length with
    | ok taken => exact ⟨_, rfl, .single (.allocate h)⟩
    | error refusal => exact ⟨m.workspace, rfl, .refl⟩
  · rw [allocateBlock_run, allocateBlock_run, show (m.withSurroundings s).memory = m.memory from rfl]
    cases m.memory.allocate length with
    | ok taken => rfl
    | error refusal => rfl

/-- A request to the memory that leaves another memory behind if it is granted. -/
theorem request_plain (f : Arena → Except Arena.Refusal Arena) (a : α)
    (hf : ∀ (w : Workspace δ) memory, f w.memory = .ok memory → Workspace.Change w { w with memory }) :
    Plain (do
      let memory ← attemptTo ((f (← get).memory).mapError .ofRefusal)
      modify fun m => { m with memory }
      pure a : Action δ α) := by
  refine ⟨fun m => ?_, fun m s => ?_⟩
  · rw [run_get_bind]
    cases h : f m.memory with
    | ok memory => exact ⟨_, rfl, .single (hf m.workspace memory h)⟩
    | error refusal => exact ⟨m.workspace, rfl, .refl⟩
  · rw [run_get_bind, run_get_bind, show (m.withSurroundings s).memory = m.memory from rfl]
    cases f m.memory with
    | ok memory => rfl
    | error refusal => rfl

/-- An access to the devices, which leaves the devices behind whether it is granted or not. -/
theorem access_plain (f : Bench δ → Bench δ × Except Fault.Cause α)
    (hf : ∀ w : Workspace δ, Workspace.Change w { w with bench := (f w.bench).1 }) :
    Plain (do
      let (bench, value) := f (← get).bench
      modify fun m => { m with bench }
      attemptTo value : Action δ α) := by
  refine ⟨fun m => ?_, fun m s => ?_⟩
  · rw [run_get_bind]
    have hc := hf m.workspace
    cases h : (f m.bench).2 with
    | ok a => exact ⟨_, by simp only [h]; rfl, .single hc⟩
    | error cause => exact ⟨_, by simp only [h]; rfl, .single hc⟩
  · rw [run_get_bind, run_get_bind, show (m.withSurroundings s).bench = m.bench from rfl]
    cases h : (f m.bench).2 with
    | ok a => simp only [h]; rfl
    | error cause => simp only [h]; rfl

omit [Peripheral δ] in
theorem sleepFor_run (now : Nat) (milliseconds : Float) (m : Machine δ) :
    (sleepFor now milliseconds : Action δ Unit).run m =
      if 0 < milliseconds then
        match pause? milliseconds with
        | some pause => .ok () { m with wakeAt := some (now + pause) }
        | none => .error (.fault .badArguments) m
      else .ok () m := by
  unfold sleepFor
  by_cases h : 0 < milliseconds
  · simp only [h, ↓reduceIte]
    cases pause? milliseconds with
    | some pause => rfl
    | none => rfl
  · simp only [h, ↓reduceIte]
    rfl

theorem sleepFor_working (now : Nat) (milliseconds : Float) :
    Working (sleepFor now milliseconds : Action δ Unit) := by
  intro m
  rw [sleepFor_run]
  split
  · split
    · exact .refl
    · exact .refl
  · exact .refl

/-- Falling asleep for the same while at two times keeps `Q`. -/
def KeptAsleep (now now' : Nat) (Q : Interlude → Interlude → Prop) : Prop :=
  ∀ h h' pause, Q h h' →
    Q { h with wakeAt := some (now + pause) } { h' with wakeAt := some (now' + pause) }

omit [Peripheral δ] in
theorem sleepFor_parallel {now now' : Nat} {Q : Interlude → Interlude → Prop}
    (hs : KeptAsleep now now' Q) (milliseconds : Float) :
    Parallel Q (sleepFor now milliseconds : Action δ Unit) (sleepFor now' milliseconds) := by
  intro m h h' hQ
  rw [sleepFor_run, sleepFor_run]
  split
  · split
    · exact .ok () m (hs h h' _ hQ)
    · exact .error _ m hQ
  · exact .ok () m hQ

theorem read_plain (op : Operand) : Plain (read op : Action δ Float) := by
  cases op with
  | literal value => exact Plain.pure _
  | hexLiteral value => exact Plain.pure _
  | register index =>
    refine Plain.get_bind (fun _ _ => rfl) fun m => ?_
    split
    · exact Plain.pure _
    · exact Plain.fail _
  | stackPointer => exact Plain.get_bind (fun _ _ => rfl) fun m => Plain.pure _
  | returnAddress => exact Plain.get_bind (fun _ _ => rfl) fun m => Plain.pure _
  | device slot index =>
    refine Plain.bind (placeOf_plain slot) fun place => ?_
    exact access_plain (·.read place index) fun w => .deviceRead place index

theorem readSource_plain (op : Option Operand) : Plain (readSource op : Action δ Float) := by
  cases op with
  | some op => exact read_plain op
  | none => exact Plain.pure _

theorem readDestination_plain (op : Option Operand) : Plain (readDestination op : Action δ Float) := by
  cases op with
  | some op => exact read_plain op
  | none => exact Plain.fail _

theorem write_plain (value : Float) (op : Option Operand) : Plain (write value op : Action δ Unit) := by
  match op with
  | some (.register index) =>
    refine Plain.get_bind (fun _ _ => rfl) fun m => Plain.ite ?_ (Plain.fail _)
    exact Plain.modify (fun w => { w with registers := w.registers.setIfInBounds index.toNat value })
      (fun _ => rfl) fun w => .register index.toNat value
  | some .stackPointer =>
    exact Plain.modify (fun w => { w with stackPointer := Number.toWord value }) (fun _ => rfl)
      fun w => .stackPointer _
  | some .returnAddress =>
    exact Plain.modify (fun w => { w with returnAddress := Number.toWord value }) (fun _ => rfl)
      fun w => .returnAddress _
  | some (.device slot index) =>
    refine Plain.bind (placeOf_plain slot) fun place => ?_
    exact access_plain (·.write place index value) fun w => .deviceWrite place index value
  | some (.literal _) => exact Plain.fail _
  | some (.hexLiteral _) => exact Plain.fail _
  | none => exact Plain.fail _

theorem jumpTo_plain (p : Program) (position : Nat) (i : Instruction) (links taken : Bool) :
    Plain (jumpTo p position i links taken : Action δ Flow) := by
  refine Plain.bind (readDestination_plain _) fun target => Plain.get_bind (fun _ _ => rfl) fun m => ?_
  split
  · exact Plain.fail _
  · refine Plain.ite (Plain.ite (Plain.bind ?_ fun _ => Plain.pure _) (Plain.pure _)) (Plain.pure _)
    exact Plain.modify (fun w => { w with returnAddress := p.returnLine position i.line }) (fun _ => rfl)
      fun w => .returnAddress _

theorem compute_plain (i : Instruction) (left right : Float) :
    Plain (compute i left right : Action δ Float) := by
  unfold compute
  split
  · exact popValue_plain
  · exact peekValue_plain
  · exact Plain.bind (readDestination_plain _) fun _ => Plain.pure _
  · exact Plain.bind (readDestination_plain _) fun _ => Plain.pure _
  · exact Plain.attemptTo _
  · exact Plain.attemptTo _
  · exact drawReal_plain _ _
  · exact drawInteger_plain _ _
  · exact Plain.pure _
  · exact allocateBlock_plain _
  · exact Plain.get_bind (fun _ _ => rfl) fun m => Plain.attemptTo _
  · exact Plain.fail _

theorem check_plain (i : Instruction) (expected : Float) : Plain (check i expected : Action δ Unit) := by
  refine Plain.bind (readDestination_plain _) fun actual => Plain.ite (Plain.fail _) (Plain.pure _)

/-- The work of every operation but `sleep` is plain. -/
theorem perform_plain (p : Program) (position now : Nat) {i : Instruction} (h : i.operation ≠ .sleep)
    (left right : Float) : Plain (perform p position now i left right : Action δ Flow) := by
  unfold perform
  split
  · exact Plain.pure _
  · exact Plain.pure _
  · exact Plain.pure _
  · exact Plain.fail _
  · exact Plain.pure _
  · exact absurd ‹_› h
  · exact jumpTo_plain ..
  · exact jumpTo_plain ..
  · exact Plain.bind (pushValue_plain _) fun _ => Plain.pure _
  · exact Plain.ite (Plain.bind (check_plain _ _) fun _ => Plain.pure _) (Plain.pure _)
  · exact request_plain (·.free left) _ fun _ _ => .free
  · exact request_plain (·.store left right) _ fun _ _ => .store
  · exact Plain.bind (compute_plain ..) fun _ => Plain.bind (write_plain _ _) fun _ => Plain.pure _

/-- How a program can go on after an instruction that is completed. -/
inductive Flow.Suits : Operation → Flow → Prop
  | next {op : Operation} (h : op ≠ .ret) : Suits op .next
  | jump {op : Operation} (h : op.isJump = true) (position : Nat) : Suits op (.jump position)
  | yield : Suits .yield (.suspend .yielded)
  | sleep : Suits .sleep (.suspend .sleeping)
  | breakpoint : Suits .breakpoint (.suspend .breakpoint)
  | ret : Suits .ret .finish

theorem jumpTo_suits (p : Program) (position : Nat) (i : Instruction) (links taken : Bool) {op : Operation}
    (h : op.isJump = true) :
    Returns (Flow.Suits op) (jumpTo p position i links taken : Action δ Flow) := by
  have hret : op ≠ .ret := by
    rintro rfl
    cases h
  refine Returns.bind fun target => Returns.bind fun m => ?_
  split
  · exact Returns.fail _
  · refine Returns.ite (Returns.ite (Returns.bind fun _ => ?_) ?_) ?_
    · exact Returns.pure (.jump h _)
    · exact Returns.pure (.jump h _)
    · exact Returns.pure (.next hret)

theorem perform_suits (p : Program) (position now : Nat) (i : Instruction) (left right : Float) :
    Returns (Flow.Suits i.operation) (perform p position now i left right : Action δ Flow) := by
  unfold perform
  cases i.operation with
  | nop => exact Returns.pure (.next nofun)
  | yield => exact Returns.pure .yield
  | ret => exact Returns.pure .ret
  | die => exact Returns.fail _
  | breakpoint =>
    refine Returns.pure ?_
    split
    · exact .next nofun
    · exact .breakpoint
  | sleep => exact Returns.bind fun _ => Returns.pure .sleep
  | jump links => exact jumpTo_suits p position i _ _ rfl
  | branch c links => exact jumpTo_suits p position i _ _ rfl
  | assert =>
    exact Returns.ite (Returns.bind fun _ => Returns.pure (.next nofun)) (Returns.pure (.next nofun))
  | free | store =>
    exact Returns.bind fun _ => Returns.bind fun _ => Returns.bind fun _ => Returns.pure (.next nofun)
  | push => exact Returns.bind fun _ => Returns.pure (.next nofun)
  | _ => exact Returns.bind fun _ => Returns.bind fun _ => Returns.pure (.next nofun)

/-! ## The whole instruction -/

/-- An instruction changes the workspace step by step, whether it is completed or fails. -/
theorem execute_working (p : Program) (position now : Nat) (i : Instruction) :
    Working (execute p position now i : Action δ Flow) := by
  refine Working.bind (readSource_plain _).working fun left => ?_
  refine Working.bind (readSource_plain _).working fun right => ?_
  by_cases hs : i.operation = .sleep
  · simp only [perform, hs]
    exact Working.bind (sleepFor_working now left) fun _ => (Plain.pure _).working
  · exact (perform_plain p position now hs left right).working

theorem execute_suits (p : Program) (position now : Nat) (i : Instruction) :
    Returns (Flow.Suits i.operation) (execute p position now i : Action δ Flow) :=
  Returns.bind fun _ => Returns.bind fun _ => perform_suits p position now i _ _

/-- What an instruction that is completed has done: it has changed the workspace, and fallen asleep only
where it ends the run. -/
theorem execute_ok {p : Program} {position now : Nat} {i : Instruction} {m m' : Machine δ} {flow : Flow}
    (h : (execute p position now i).run m = .ok flow m') :
    flow ≠ .suspend .budgetExhausted ∧
      ∃ w wake, m' = { m.withWorkspace w with wakeAt := wake } ∧
        (wake = m.wakeAt ∨ flow = .suspend .sleeping) := by
  have hsuits := execute_suits p position now i m flow m' h
  obtain ⟨left, m₁, h₁, h⟩ := run_bind_ok h
  obtain ⟨right, m₂, h₂, h⟩ := run_bind_ok h
  refine ⟨?_, ?_⟩
  · rintro rfl
    generalize i.operation = op at hsuits
    cases hsuits
  obtain ⟨w₁, rfl⟩ := (readSource_plain i.left).eq_of_ok h₁
  obtain ⟨w₂, rfl⟩ := (readSource_plain i.right).eq_of_ok h₂
  by_cases hs : i.operation = .sleep
  · simp only [perform, hs] at h
    obtain ⟨u, m₃, h₃, h⟩ := run_bind_ok h
    cases h
    rw [sleepFor_run] at h₃
    split at h₃
    · split at h₃
      · cases h₃
        exact ⟨w₂, _, rfl, .inr rfl⟩
      · cases h₃
    · cases h₃
      exact ⟨w₂, _, rfl, .inr rfl⟩
  · obtain ⟨w₃, rfl⟩ := (perform_plain p position now hs left right).eq_of_ok h
    exact ⟨w₃, m.wakeAt, rfl, .inl rfl⟩

/-- What an instruction that fails has done: it has changed the workspace at most. -/
theorem execute_error {p : Program} {position now : Nat} {i : Instruction} {m m' : Machine δ}
    {t : Trouble} (h : (execute p position now i).run m = .error t m') :
    ∃ w, m' = m.withWorkspace w := by
  obtain h | ⟨left, m₁, h₁, h⟩ := run_bind_error h
  · exact (readSource_plain i.left).eq_of_error h
  obtain ⟨w₁, rfl⟩ := (readSource_plain i.left).eq_of_ok h₁
  obtain h | ⟨right, m₂, h₂, h⟩ := run_bind_error h
  · obtain ⟨w₂, rfl⟩ := (readSource_plain i.right).eq_of_error h
    exact ⟨w₂, rfl⟩
  obtain ⟨w₂, rfl⟩ := (readSource_plain i.right).eq_of_ok h₂
  by_cases hs : i.operation = .sleep
  · simp only [perform, hs] at h
    obtain h | ⟨u, m₃, h₃, h⟩ := run_bind_error h
    · rw [sleepFor_run] at h
      split at h
      · split at h
        · cases h
        · cases h
          exact ⟨w₂, rfl⟩
      · cases h
    · cases h
  · obtain ⟨w₃, rfl⟩ := (perform_plain p position now hs left right).eq_of_error h
    exact ⟨w₃, rfl⟩

/-- An instruction does the same at two times on machines that are the same but for the interludes. -/
theorem execute_parallel {now now' : Nat} {Q : Interlude → Interlude → Prop}
    (hs : KeptAsleep now now' Q) (p : Program) (position : Nat) (i : Instruction) :
    Parallel Q (execute p position now i : Action δ Flow) (execute p position now' i) := by
  refine Parallel.bind ((readSource_plain i.left).parallel Q) fun left => ?_
  refine Parallel.bind ((readSource_plain i.right).parallel Q) fun right => ?_
  by_cases ho : i.operation = .sleep
  · simp only [perform, ho]
    exact Parallel.bind (sleepFor_parallel hs left) fun _ => (Plain.pure _).parallel Q
  · have he : (perform p position now i left right : Action δ Flow) = perform p position now' i left right := by
      unfold perform
      split <;> first | rfl | exact absurd ‹i.operation = .sleep› ho
    rw [he]
    exact (perform_plain p position now' ho left right).parallel Q

end Parts

end VirtualProcessor.Machine
