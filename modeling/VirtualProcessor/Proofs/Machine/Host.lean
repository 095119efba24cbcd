import VirtualProcessor.Proofs.Arena.Blocks
import VirtualProcessor.Proofs.Machine.Watchdog

/-!
# What a host can do to a machine

`Move` lists the calls of a host, and `afterAll` makes them one after the other. `Handled` is what all calls but
loading and running come to, and `tried` lists the attempts at instructions in the course of some calls, each with the
machine before it. `KeptWhile` says of a property that nothing that can happen to a machine ends it, neither a call nor
an attempt in the course of one, as long as the programs and the instructions are of a kind. Then it lasts through all
calls (`KeptWhile.tried`). `Kept` is the same for any instructions.

So the sizes of a machine last (`sized_kept`). Hence the main statement `load_forgets`: whatever was done to a
machine before a program is loaded, loading it comes to what it comes to on a new machine of the same sizes.
-/

namespace VirtualProcessor.Machine

variable {δ : Type}

/-- What a host can do: to the machine, and to the devices that it keeps on the bench. -/
inductive Move (δ : Type) where
  | load (p : Program) (options : LoadOptions)
  | run (c : Call)
  | push (value : Float)
  | pop
  | plug (slot place : Nat)
  | unplug (slot : Nat)
  | observe (observed : Bool)
  | work (bench : Bench δ)

/-- Whether the host only handles the machine: it neither loads a program nor has it run. -/
def Move.handles : Move δ → Bool
  | .load .. => false
  | .run _ => false
  | _ => true

/-- A machine that was handled: other values may be on the stack and other devices in the slots and on the bench,
and the host may want to see snapshots or not. -/
structure Handled (m m' : Machine δ) : Prop where
  eq : m' =
    { m with
      stack := m'.stack
      stackPointer := m'.stackPointer
      slots := m'.slots
      observed := m'.observed
      bench := m'.bench }
  stack : m'.stack.size = m.stack.size
  slots : m'.slots.size = m.slots.size

namespace Handled

variable {m m' : Machine δ}

/-- What a view sees that does not look at what is handled stays. -/
theorem keeps {α : Type} (view : Machine δ → α) (h : Handled m m')
    (hview : ∀ n stack stackPointer slots observed bench,
      view { n with stack, stackPointer, slots, observed, bench } = view n) : view m' = view m := by
  rw [h.eq]
  exact hview ..

theorem program (h : Handled m m') : m'.program = m.program := h.keeps _ fun _ _ _ _ _ _ => rfl

theorem failure (h : Handled m m') : m'.failure = m.failure := h.keeps _ fun _ _ _ _ _ _ => rfl

theorem position (h : Handled m m') : m'.position = m.position := h.keeps _ fun _ _ _ _ _ _ => rfl

theorem interlude (h : Handled m m') : m'.interlude = m.interlude := h.keeps _ fun _ _ _ _ _ _ => rfl

end Handled

/-- An attempt at an instruction: the machine before it, the time and the instruction. -/
structure Step (δ : Type) where
  machine : Machine δ
  now : Nat
  instruction : Instruction

section Kept

variable [Peripheral δ]

/-! ## Moves -/

/-- The machine after a move. One that is refused leaves it as it is. -/
def after (m : Machine δ) : Move δ → Machine δ
  | .load p options => (m.load p options).1
  | .run c => (m.answer c).machine
  | .push value => (m.push value).getD m
  | .pop => (m.pop.map Prod.snd).getD m
  | .plug slot place => (m.plug slot place).getD m
  | .unplug slot => (m.unplug slot).getD m
  | .observe observed => { m with observed }
  | .work bench => { m with bench }

def afterAll (m : Machine δ) (moves : List (Move δ)) : Machine δ := moves.foldl after m

theorem afterAll_append (m : Machine δ) (s t : List (Move δ)) :
    m.afterAll (s ++ t) = (m.afterAll s).afterAll t := List.foldl_append

/-- What the moves yield, one after the other. -/
def collect {α : Type} (yield : Machine δ → Move δ → List α) (m : Machine δ) : List (Move δ) → List α
  | [] => []
  | a :: rest => yield m a ++ (m.after a).collect yield rest

theorem collect_append {α : Type} (yield : Machine δ → Move δ → List α) (m : Machine δ) (s t : List (Move δ)) :
    m.collect yield (s ++ t) = m.collect yield s ++ (m.afterAll s).collect yield t := by
  induction s generalizing m with
  | nil => rfl
  | cons a rest ih =>
    rw [List.cons_append, collect, ih, collect, List.append_assoc]
    rfl

theorem after_push (m : Machine δ) (value : Float) :
    ∃ stack stackPointer, stack.size = m.stack.size ∧
      m.after (.push value) = { m with stack := stack, stackPointer := stackPointer } := by
  show ∃ stack stackPointer, _ ∧ (m.push value).getD m = _
  unfold push
  split
  · exact ⟨_, _, Array.size_setIfInBounds, rfl⟩
  · exact ⟨m.stack, m.stackPointer, rfl, rfl⟩

theorem after_pop (m : Machine δ) : ∃ stackPointer, m.after .pop = { m with stackPointer := stackPointer } := by
  show ∃ stackPointer, (m.pop.map Prod.snd).getD m = _
  unfold pop
  cases m.top? with
  | none => exact ⟨m.stackPointer, rfl⟩
  | some value => exact ⟨_, rfl⟩

theorem after_plug (m : Machine δ) (slot place : Nat) :
    ∃ slots, slots.size = m.slots.size ∧ m.after (.plug slot place) = { m with slots := slots } := by
  show ∃ slots, _ ∧ (m.plug slot place).getD m = _
  unfold plug
  split
  · exact ⟨_, Array.size_setIfInBounds, rfl⟩
  · exact ⟨m.slots, rfl, rfl⟩

theorem after_unplug (m : Machine δ) (slot : Nat) :
    ∃ slots, slots.size = m.slots.size ∧ m.after (.unplug slot) = { m with slots := slots } := by
  show ∃ slots, _ ∧ (m.unplug slot).getD m = _
  unfold unplug
  split
  · exact ⟨_, Array.size_setIfInBounds, rfl⟩
  · exact ⟨m.slots, rfl, rfl⟩

theorem handled_after (m : Machine δ) {a : Move δ} (h : a.handles = true) : Handled m (m.after a) := by
  cases a with
  | load => cases h
  | run => cases h
  | push value =>
    obtain ⟨stack, stackPointer, hsize, e⟩ := m.after_push value
    rw [e]
    exact ⟨rfl, hsize, rfl⟩
  | pop =>
    obtain ⟨stackPointer, e⟩ := m.after_pop
    rw [e]
    exact ⟨rfl, rfl, rfl⟩
  | plug slot place =>
    obtain ⟨slots, hsize, e⟩ := m.after_plug slot place
    rw [e]
    exact ⟨rfl, rfl, hsize⟩
  | unplug slot =>
    obtain ⟨slots, hsize, e⟩ := m.after_unplug slot
    rw [e]
    exact ⟨rfl, rfl, hsize⟩
  | observe observed => exact ⟨rfl, rfl, rfl⟩
  | work bench => exact ⟨rfl, rfl, rfl⟩

/-! ## Attempts in the course of moves -/

/-- The attempts that the loop makes. -/
def loopSteps (p : Program) (now : Nat) : (budget : Nat) → Machine δ → List (Step δ)
  | 0, _ => []
  | budget + 1, m =>
    match p.instructions[m.position]? with
    | none => []
    | some i =>
      ⟨m, now, i⟩ ::
        if (m.attempt p now i).ending = none then loopSteps p now budget (m.attempt p now i).machine else []

/-- The attempts that are made in a call. -/
def stepsIn (m : Machine δ) (c : Call) : List (Step δ) :=
  match m.program with
  | none => []
  | some p =>
    if m.failure = none ∧ m.position < p.size ∧ m.isAsleep c.start = false then
      loopSteps p c.later c.budget m.awakened
    else []

def stepsOf (m : Machine δ) : Move δ → List (Step δ)
  | .run c => m.stepsIn c
  | _ => []

/-- The attempts in the course of some moves. -/
def tried (m : Machine δ) (moves : List (Move δ)) : List (Step δ) := m.collect stepsOf moves

/-! ## What lasts -/

/-- A property that nothing ends that can happen to a machine, provided that only such programs are loaded as `L` says
and only such instructions are attempted as `I` says. -/
structure KeptWhile (L : Program → Prop) (I : Instruction → Prop) (P : Machine δ → Prop) : Prop where
  load {m : Machine δ} {p : Program} (hp : L p) (options : LoadOptions) (h : P m) : P (m.load p options).1
  attempt {m : Machine δ} {p : Program} {i : Instruction} (hp : m.program = some p) (hf : m.failure = none)
    (hi : p.instructions[m.position]? = some i) (hI : I i) (now : Nat) (h : P m) : P (m.attempt p now i).machine
  interlude {m : Machine δ} (i : Interlude) (h : P m) : P (m.withInterlude i)
  unloaded {m : Machine δ} (hp : m.program = none) (h : P m) : P (m.latch .notLoaded)
  handle {m : Machine δ} {a : Move δ} (ha : a.handles = true) (h : P m) : P (m.after a)

namespace KeptWhile

variable {L : Program → Prop} {I : Instruction → Prop} {P : Machine δ → Prop} {m : Machine δ}

theorem loop (hP : KeptWhile L I P) {p : Program} (hp : m.program = some p) (hf : m.failure = none) (h : P m)
    {now budget : Nat} (hI : ∀ s ∈ loopSteps p now budget m, I s.instruction) (ns : List Notice)
    (ss : List Snapshot) :
    P (loop p now budget m ns ss).machine ∧ ∀ s ∈ loopSteps p now budget m, P s.machine := by
  induction budget generalizing m ns ss with
  | zero => exact ⟨hP.interlude (m.settle _).interlude h, fun s hs => absurd hs List.not_mem_nil⟩
  | succ budget ih =>
    unfold loopSteps at hI ⊢
    unfold Machine.loop
    cases hi : p.instructions[m.position]? with
    | none => exact ⟨hP.interlude (m.settle _).interlude h, fun s hs => absurd hs List.not_mem_nil⟩
    | some i =>
      simp only [hi] at hI
      obtain ⟨hfirst, hrest⟩ := List.forall_mem_cons.mp hI
      have ha := attempt_attempted m p now i
      have hnext := hP.attempt hp hf hi hfirst now h
      simp only
      cases he : (m.attempt p now i).ending with
      | some ending => exact ⟨hnext, List.forall_mem_cons.mpr ⟨h, fun s hs => absurd hs (by simp)⟩⟩
      | none =>
        rw [he, if_pos rfl] at hrest
        obtain ⟨hlast, hall⟩ := ih (ha.program.trans hp) ((ha.continues he).2.1.trans hf) hnext hrest _ _
        exact ⟨hlast, List.forall_mem_cons.mpr ⟨h, by rwa [if_pos rfl]⟩⟩

theorem answer (hP : KeptWhile L I P) (h : P m) (c : Call) (hI : ∀ s ∈ m.stepsIn c, I s.instruction) :
    P (m.answer c).machine ∧ ∀ s ∈ m.stepsIn c, P s.machine := by
  unfold stepsIn at hI ⊢
  unfold Machine.answer
  cases hp : m.program with
  | none =>
    rw [runDuring_unloaded hp]
    exact ⟨hP.unloaded hp h, fun s hs => absurd hs List.not_mem_nil⟩
  | some p =>
    simp only [hp] at hI ⊢
    by_cases hawake : m.failure = none ∧ m.position < p.size ∧ m.isAsleep c.start = false
    · rw [if_pos hawake] at hI ⊢
      obtain ⟨hf, he, ha⟩ := hawake
      rw [runDuring_awake hp hf (Nat.not_le.mpr he) ha]
      exact hP.loop (m := m.awakened) hp hf (hP.interlude m.awakened.interlude h) hI _ _
    · rw [if_neg hawake]
      obtain ⟨r, hidle, hr⟩ | ⟨hf, he, ha⟩ := idle_or_awake hp c.start c.later
      · rw [hr]
        refine ⟨hidle.keeps h fun o => hP.interlude (m.settle o).interlude h, ?_⟩
        exact fun s hs => absurd hs List.not_mem_nil
      · exact absurd ⟨hf, Nat.not_le.mp he, ha⟩ hawake

/-- Such a property holds after all moves, and before each attempt in their course. -/
theorem tried (hP : KeptWhile L I P) (h : P m) {moves : List (Move δ)}
    (hL : ∀ p options, Move.load p options ∈ moves → L p) (hI : ∀ s ∈ m.tried moves, I s.instruction) :
    P (m.afterAll moves) ∧ ∀ s ∈ m.tried moves, P s.machine := by
  induction moves generalizing m with
  | nil => exact ⟨h, fun s hs => absurd hs List.not_mem_nil⟩
  | cons a rest ih =>
    obtain ⟨hfirst, hrest⟩ := List.forall_mem_append.mp hI
    have hmove : P (m.after a) ∧ ∀ s ∈ m.stepsOf a, P s.machine := by
      cases a with
      | load p options =>
        exact ⟨hP.load (hL p options List.mem_cons_self) options h, fun s hs => absurd hs List.not_mem_nil⟩
      | run c => exact hP.answer h c hfirst
      | _ => exact ⟨hP.handle rfl h, fun s hs => absurd hs List.not_mem_nil⟩
    obtain ⟨hlast, hall⟩ := ih hmove.1 (fun p options hmem => hL p options (List.mem_cons_of_mem a hmem)) hrest
    exact ⟨hlast, List.forall_mem_append.mpr ⟨hmove.2, hall⟩⟩

end KeptWhile

/-- A property that nothing ends that can happen to a machine, whatever is attempted and however it is handled, provided
that the programs are as `L` says. -/
structure Kept (L : Program → Prop) (P : Machine δ → Prop) : Prop where
  load {m : Machine δ} {p : Program} (hp : L p) (options : LoadOptions) (h : P m) : P (m.load p options).1
  attempt {m : Machine δ} {p : Program} {i : Instruction} (hp : m.program = some p) (hf : m.failure = none)
    (hi : p.instructions[m.position]? = some i) (now : Nat) (h : P m) : P (m.attempt p now i).machine
  interlude {m : Machine δ} (i : Interlude) (h : P m) : P (m.withInterlude i)
  unloaded {m : Machine δ} (hp : m.program = none) (h : P m) : P (m.latch .notLoaded)
  handle {m m' : Machine δ} (hm : Handled m m') (h : P m) : P m'

namespace Kept

variable {L : Program → Prop} {P : Machine δ → Prop} {m : Machine δ}

theorem keptWhile (hP : Kept L P) : KeptWhile L (fun _ => True) P where
  load hp options h := hP.load hp options h
  attempt hp hf hi _ now h := hP.attempt hp hf hi now h
  interlude i h := hP.interlude i h
  unloaded hp h := hP.unloaded hp h
  handle ha h := hP.handle (handled_after _ ha) h

/-- Such a property holds after all moves, and before each attempt in their course. -/
theorem tried (hP : Kept L P) (h : P m) {moves : List (Move δ)}
    (hL : ∀ p options, Move.load p options ∈ moves → L p) :
    P (m.afterAll moves) ∧ ∀ s ∈ m.tried moves, P s.machine := hP.keptWhile.tried h hL fun _ _ => trivial

theorem afterAll (hP : Kept L P) (h : P m) {moves : List (Move δ)}
    (hL : ∀ p options, Move.load p options ∈ moves → L p) : P (m.afterAll moves) := (hP.tried h hL).1

end Kept

end Kept

/-! ## Sizes -/

/-- A machine of the given sizes. -/
structure Sized (c : Capacities) (m : Machine δ) : Prop where
  registers : m.registers.size = c.registers
  stack : m.stack.size = c.stack
  cells : m.memory.cells.size = c.memory
  tags : m.memory.tags.size = c.memory
  slots : m.slots.size = c.slots

theorem sized_new (c : Capacities) (seed : UInt64) (bench : Bench δ) : Sized c (new c seed bench) :=
  ⟨Array.size_replicate, Array.size_replicate, Array.size_replicate, Array.size_replicate,
    Array.size_replicate⟩

theorem Sized.capacities_eq {c : Capacities} {m : Machine δ} (h : Sized c m) : m.capacities = c := by
  unfold capacities
  rw [h.registers, h.stack, h.slots, show m.memory.size = c.memory from h.cells]

theorem Sized.reset {c : Capacities} {m : Machine δ} (h : Sized c m) (p : Program) (options : LoadOptions) :
    Sized c (m.reset p options) := by
  refine ⟨?_, ?_, ?_, ?_, ?_⟩
  · exact Array.size_replicate.trans h.registers
  · exact Array.size_replicate.trans h.stack
  · exact Array.size_replicate.trans h.cells
  · exact Array.size_replicate.trans h.tags
  · show (if options.unplugDevices then Array.replicate m.slots.size none else m.slots).size = c.slots
    split
    · exact Array.size_replicate.trans h.slots
    · exact h.slots

/-- Loading resets the machine and keeps what it is short of as its failure. -/
theorem load_eq (m : Machine δ) (p : Program) (options : LoadOptions) :
    m.load p options =
      let short := shortage? (m.reset p options).capacities p.requirements
      ({ m.reset p options with failure := short }, short,
        .loaded p.size p.target options.watchdog :: (short.map Notice.halted).toList) := by
  unfold load
  simp only
  cases shortage? (m.reset p options).capacities p.requirements with
  | none => rfl
  | some fault => rfl

/-- What is loaded into machines of the same sizes finds the same machine, but for the generator, the devices and
what the host wants to see. -/
theorem Sized.reset_eq {c : Capacities} {m : Machine δ} (h : Sized c m) (seed : UInt64) (bench : Bench δ)
    (p : Program) (options : LoadOptions) :
    m.reset p options =
      { (new c seed bench).reset p options with
        random := m.random
        observed := m.observed
        bench := m.bench
        slots := if options.unplugDevices then ((new c seed bench).reset p options).slots else m.slots } := by
  have hnew := sized_new c seed bench
  simp only [Machine.reset, Arena.clear, h.registers, h.stack, h.cells, h.tags, h.slots, hnew.registers,
    hnew.stack, hnew.cells, hnew.tags, hnew.slots]
  cases options.unplugDevices <;> rfl

section Kept

variable [Peripheral δ]

theorem Workspace.Change.sizes {w w' : Workspace δ} (h : Workspace.Change w w') :
    w'.registers.size = w.registers.size ∧ w'.stack.size = w.stack.size ∧
      w'.memory.cells.size = w.memory.cells.size ∧ w'.memory.tags.size = w.memory.tags.size := by
  cases h with
  | register => exact ⟨Array.size_setIfInBounds, rfl, rfl, rfl⟩
  | cell => exact ⟨rfl, Array.size_setIfInBounds, rfl, rfl⟩
  | allocate h =>
    obtain ⟨n, -, -, -, rfl⟩ := Arena.allocate_ok h
    exact ⟨rfl, rfl, Arena.size_cells_retag .., Arena.size_tags_retag ..⟩
  | free h =>
    obtain ⟨base, -, -, rfl⟩ := Arena.free_ok h
    exact ⟨rfl, rfl, Arena.size_cells_retag .., Arena.size_tags_retag ..⟩
  | store h =>
    obtain ⟨x, -, rfl⟩ := Arena.store_ok h
    exact ⟨rfl, rfl, Array.size_setIfInBounds, rfl⟩
  | _ => exact ⟨rfl, rfl, rfl, rfl⟩

theorem Sized.of_changes {c : Capacities} {m m' : Machine δ} (h : Sized c m)
    (hc : Workspace.Changes m.workspace m'.workspace) (hs : m'.slots = m.slots) : Sized c m' := by
  have hsizes : m'.registers.size = m.registers.size ∧ m'.stack.size = m.stack.size ∧
      m'.memory.cells.size = m.memory.cells.size ∧ m'.memory.tags.size = m.memory.tags.size := by
    show m'.workspace.registers.size = m.workspace.registers.size ∧
      m'.workspace.stack.size = m.workspace.stack.size ∧
      m'.workspace.memory.cells.size = m.workspace.memory.cells.size ∧
      m'.workspace.memory.tags.size = m.workspace.memory.tags.size
    generalize m'.workspace = w at hc
    induction hc with
    | refl => exact ⟨rfl, rfl, rfl, rfl⟩
    | tail _ hstep ih =>
      obtain ⟨hr, hst, hce, hta⟩ := hstep.sizes
      exact ⟨hr.trans ih.1, hst.trans ih.2.1, hce.trans ih.2.2.1, hta.trans ih.2.2.2⟩
  obtain ⟨hr, hst, hce, hta⟩ := hsizes
  exact ⟨hr.trans h.registers, hst.trans h.stack, hce.trans h.cells, hta.trans h.tags, by rw [hs, h.slots]⟩

/-- No call of a host and no instruction changes a size. -/
theorem sized_kept (c : Capacities) : Kept (δ := δ) (fun _ => True) (Sized c) where
  load {m p} _ options h := by
    obtain ⟨hr, hst, hce, hta, hsl⟩ := h.reset p options
    rw [load_eq]
    exact ⟨hr, hst, hce, hta, hsl⟩
  attempt {m p i} _ _ _ now h := h.of_changes (attempt_changes m p now i) (attempt_attempted m p now i).slots
  interlude _ h := ⟨h.registers, h.stack, h.cells, h.tags, h.slots⟩
  unloaded _ h := ⟨h.registers, h.stack, h.cells, h.tags, h.slots⟩
  handle {m m'} hm h := by
    refine ⟨?_, hm.stack.trans h.stack, ?_, ?_, hm.slots.trans h.slots⟩
    · exact (hm.keeps (·.registers.size) fun _ _ _ _ _ _ => rfl).trans h.registers
    · exact (hm.keeps (·.memory.cells.size) fun _ _ _ _ _ _ => rfl).trans h.cells
    · exact (hm.keeps (·.memory.tags.size) fun _ _ _ _ _ _ => rfl).trans h.tags

theorem sized_afterAll (c : Capacities) (seed : UInt64) (bench : Bench δ) (moves : List (Move δ)) :
    Sized c ((new c seed bench).afterAll moves) :=
  (sized_kept c).afterAll (sized_new c seed bench) fun _ _ _ => trivial

/-- Loading a program leaves nothing of what a host and earlier programs have done to a machine: it has the result
that it has on a new machine of the same sizes, also if the machine is too small, and leaves the same machine but
for the generator, the devices of the host and which of them are plugged in, unless they are to be unplugged, and
whether the host wants to see snapshots. -/
theorem load_forgets (c : Capacities) (seed seed' : UInt64) (bench bench' : Bench δ) (moves : List (Move δ))
    (p : Program) (options : LoadOptions) :
    let used := (new c seed bench).afterAll moves
    let fresh := new c seed' bench'
    (used.load p options).2 = (fresh.load p options).2 ∧
      (used.load p options).1 =
        { (fresh.load p options).1 with
          random := used.random
          observed := used.observed
          bench := used.bench
          slots := if options.unplugDevices then (fresh.load p options).1.slots else used.slots } := by
  intro used fresh
  have hused : Sized c used := sized_afterAll c seed bench moves
  have hfresh : Sized c fresh := sized_new c seed' bench'
  have hshort : (used.reset p options).capacities = (fresh.reset p options).capacities :=
    (hused.reset p options).capacities_eq.trans (hfresh.reset p options).capacities_eq.symm
  rw [load_eq, load_eq, hshort]
  refine ⟨rfl, ?_⟩
  simp only
  rw [hused.reset_eq seed' bench' p options]

end Kept

end VirtualProcessor.Machine
