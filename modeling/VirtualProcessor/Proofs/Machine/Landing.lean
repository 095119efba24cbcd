import VirtualProcessor.Proofs.Machine.Trace
import VirtualProcessor.Proofs.Number.Order

/-!
# Jumps in programs with any lines

The lines of a program that was not assembled may stand in any order and more than once. `Program.Lands` says what a
jump to a number means there: the program is searched from the front for the line that is the whole part of the
number. The machine looks the line up in its index instead, which comes to the same (`destination?_eq_some_iff`). So
a jump goes on where the search ends and fails where it finds nothing (`goesTo_of_aims`, `failsWith_of_aims`), on
every machine that holds the program. A machine holds the program that was loaded last whatever happens to it
(`held_recorded`): `jump_resolved`.
-/

namespace VirtualProcessor

open Number

/-! ## The search for a line -/

/-- A number that names a line: the line is its whole part. -/
structure NamesLine (target : Float) (line : UInt32) : Prop where
  low : 0 ≤ target
  high : target ≤ 4294967295
  floor : Float.ofNat line.toNat ≤ target
  ceiling : target < Float.ofNat (line.toNat + 1)

instance (target : Float) (line : UInt32) : Decidable (NamesLine target line) :=
  decidable_of_iff
    (0 ≤ target ∧ target ≤ 4294967295 ∧ Float.ofNat line.toNat ≤ target ∧ target < Float.ofNat (line.toNat + 1))
    ⟨fun ⟨hl, hh, hf, hc⟩ => ⟨hl, hh, hf, hc⟩, fun ⟨hl, hh, hf, hc⟩ => ⟨hl, hh, hf, hc⟩⟩

/-- The position of the first instruction of a program, in order, whose line a number names. -/
structure Program.Lands (p : Program) (target : Float) (position : Nat) : Prop where
  carries : ∃ i, p.instructions[position]? = some i ∧ NamesLine target i.line
  first : ∀ k < position, ∀ i, p.instructions[k]? = some i → ¬ NamesLine target i.line

theorem LineIndex.getElem?_ofProgram_eq_some_iff {p : Program} {line : UInt32} {position : Nat} :
    (ofProgram p)[line]? = some position ↔
      (∃ i, p.instructions[position]? = some i ∧ i.line = line) ∧
        ∀ k < position, ∀ i, p.instructions[k]? = some i → i.line ≠ line := by
  rw [getElem?_ofProgram, List.findIdx?_eq_some_iff_getElem]
  simp only [← Array.getElem?_toList]
  constructor
  · rintro ⟨hlt, hline, hfirst⟩
    refine ⟨⟨_, List.getElem?_eq_getElem hlt, eq_of_beq hline⟩, fun k hk i hi => ?_⟩
    obtain ⟨-, rfl⟩ := List.getElem?_eq_some_iff.mp hi
    simpa using hfirst k hk
  · rintro ⟨⟨i, hi, rfl⟩, hfirst⟩
    obtain ⟨hlt, rfl⟩ := List.getElem?_eq_some_iff.mp hi
    refine ⟨hlt, beq_self_eq_true _, fun k hk => ?_⟩
    simpa using hfirst k hk _ (List.getElem?_eq_getElem (Nat.lt_trans hk hlt))

namespace Machine

theorem lineOf?_eq_some_iff {target : Float} {line : UInt32} : lineOf? target = some line ↔ NamesLine target line := by
  unfold lineOf?
  by_cases hrange : 0 ≤ target ∧ target ≤ 4294967295
  case neg =>
    rw [if_neg hrange]
    constructor
    · intro h
      cases h
    · exact fun h => absurd ⟨h.low, h.high⟩ hrange
  case pos =>
    obtain ⟨hlow, hhigh⟩ := hrange
    obtain ⟨k, hk⟩ := exists_wholePart? (l := 0) (n := 4294967295) (by decide) hlow (by decide) hhigh
    have hle : k ≤ 4294967295 := le_of_le_ofNat hk (by decide) hhigh
    have hword : k < UInt32.size := Nat.lt_succ_of_le hle
    have hline := line.toNat_lt
    rw [if_pos ⟨hlow, hhigh⟩, toWord_eq hk hword, Option.some_inj, ← UInt32.toNat_inj,
      UInt32.toNat_ofNat_of_lt' hword]
    constructor
    · rintro rfl
      refine ⟨hlow, hhigh, ?_, ?_⟩
      · exact (ofNat_le_iff hk (by omega)).mpr (Nat.le_refl _)
      · exact (lt_ofNat_iff hk (by omega)).mpr (Nat.lt_succ_self _)
    · rintro ⟨-, -, hfloor, hceiling⟩
      have hfrom : line.toNat ≤ k := (ofNat_le_iff hk (by omega)).mp hfloor
      have hto : k < line.toNat + 1 := (lt_ofNat_iff hk (by omega)).mp hceiling
      omega

/-- Looking a line up is searching for it from the front. -/
theorem destination?_eq_some_iff {p : Program} {target : Float} {position : Nat} :
    destination? (.ofProgram p) target = some position ↔ p.Lands target position := by
  rw [destination?, Option.bind_eq_some_iff]
  simp only [lineOf?_eq_some_iff, LineIndex.getElem?_ofProgram_eq_some_iff]
  constructor
  · rintro ⟨line, hline, ⟨i, hi, rfl⟩, hfirst⟩
    refine ⟨⟨i, hi, hline⟩, fun k hk j hj hnames => hfirst k hk j hj ?_⟩
    exact Option.some.inj ((lineOf?_eq_some_iff.mpr hnames).symm.trans (lineOf?_eq_some_iff.mpr hline))
  · rintro ⟨⟨i, hi, hline⟩, hfirst⟩
    refine ⟨i.line, hline, ⟨i, hi, rfl⟩, fun k hk j hj heq => hfirst k hk j hj ?_⟩
    rw [heq]
    exact hline

/-! ## Jumps -/

section Jumps

variable {δ : Type} [Peripheral δ]

/-- What a jump or a branch compares and its destination can be read: the number it names, and whether it is
taken. -/
def Aims (m : Machine δ) (i : Instruction) (target : Float) (taken : Bool) : Prop :=
  ∃ left m₁ right m₂ m₃, (readSource i.left).run m = .ok left m₁ ∧ (readSource i.right).run m₁ = .ok right m₂ ∧
    (readDestination i.destination).run m₂ = .ok target m₃ ∧ i.operation.takes left right = taken

/-- An instruction is completed, and the program goes on at a position. -/
structure GoesTo (m : Machine δ) (p : Program) (now : Nat) (i : Instruction) (position : Nat) : Prop where
  completes : m.comesThrough p now i = true
  position : (m.attempt p now i).machine.position = position

/-- An instruction fails for a cause, which ends the run and is kept. -/
structure FailsWith (m : Machine δ) (p : Program) (now : Nat) (i : Instruction) (cause : Fault.Cause) : Prop where
  ending : (m.attempt p now i).ending = some (.fault (.failed cause (locationOf i)))
  failure : (m.attempt p now i).machine.failure = some (.failed cause (locationOf i))
  position : (m.attempt p now i).machine.position = m.position

variable {m : Machine δ} {p : Program} {i : Instruction} {target : Float} {taken : Bool}

/-- A jump to a number that compares as it should aims at that number. -/
theorem aims_of_compares (h : m.Compares i) (hd : i.destination = some (.literal (.ofFloat target))) :
    m.Aims i target true := by
  obtain ⟨left, m₁, right, m₂, hl, hr, ht⟩ := h
  refine ⟨left, m₁, right, m₂, m₂, hl, hr, ?_, ht⟩
  rw [hd]
  show EStateM.Result.ok (Stored.ofFloat target).toFloat _ = _
  rw [toFloat_ofFloat]

/-- The work of a jump that can read all it needs depends on nothing but where its target leads. -/
theorem execute_aims (hj : i.operation.isJump = true) (h : m.Aims i target taken) (position now : Nat) :
    ∃ w, (execute p position now i).run m =
      match destination? m.lineIndex target with
      | none => .error (.fault .invalidJump) (m.withWorkspace w)
      | some next =>
        if taken then
          .ok (.jump next) ((m.withWorkspace w).linked i.operation.links (p.returnLine position i.line))
        else .ok .next (m.withWorkspace w) := by
  obtain ⟨left, m₁, right, m₂, m₃, hl, hr, hd, rfl⟩ := h
  obtain ⟨w₁, rfl⟩ := (readSource_plain _).eq_of_ok hl
  obtain ⟨w₂, rfl⟩ := (readSource_plain _).eq_of_ok hr
  obtain ⟨w₃, rfl⟩ := (readDestination_plain _).eq_of_ok hd
  refine ⟨w₃, ?_⟩
  unfold execute
  rw [EStateM.run_bind, hl]
  simp only
  rw [EStateM.run_bind, hr]
  simp only
  rw [perform_jump p position now hj, jumpTo_run, hd]
  rfl

theorem goesTo_of_aims (hm : Holds p m) (hj : i.operation.isJump = true) (h : m.Aims i target taken) {next : Nat}
    (hn : p.Lands target next) (now : Nat) :
    m.GoesTo p now i (if taken then next else m.position + 1) := by
  obtain ⟨w, hrun⟩ := execute_aims (p := p) hj h m.position now
  rw [hm.lineIndex, destination?_eq_some_iff.mpr hn] at hrun
  cases taken with
  | true => exact ⟨by simp only [comesThrough, hrun, ↓reduceIte], position_attempt hrun⟩
  | false => exact ⟨by simp only [comesThrough, hrun, Bool.false_eq_true, ↓reduceIte], position_attempt hrun⟩

theorem failsWith_of_aims (hm : Holds p m) (hj : i.operation.isJump = true) (h : m.Aims i target taken)
    (hn : ∀ next, ¬ p.Lands target next) (now : Nat) : m.FailsWith p now i .invalidJump := by
  have hnone : destination? (.ofProgram p) target = none := by
    rw [Option.eq_none_iff_forall_not_mem]
    exact fun next hnext => hn next (destination?_eq_some_iff.mp hnext)
  obtain ⟨w, hrun⟩ := execute_aims (p := p) hj h m.position now
  rw [hm.lineIndex, hnone] at hrun
  have hattempt : m.attempt p now i = ⟨(m.withWorkspace w).latch (.failed .invalidJump (locationOf i)),
      some (.fault (.failed .invalidJump (locationOf i))),
      [.step m.frame i, .halted (.failed .invalidJump (locationOf i))], []⟩ := by
    unfold attempt
    rw [hrun]
  exact ⟨by rw [hattempt], by rw [hattempt]; rfl, by rw [hattempt]; rfl⟩

end Jumps

/-! ## The program that was loaded last -/

section Loaded

variable {δ : Type} [Peripheral δ]

/-- A machine holds a program, and so did the machines of all attempts so far, which were at its instructions. -/
structure Held (p : Program) (steps : List (Step δ)) (m : Machine δ) : Prop where
  holds : Holds p m
  placed : ∀ s ∈ steps, Holds p s.machine ∧ p.instructions[s.machine.position]? = some s.instruction

theorem held_recorded (p : Program) :
    Recorded (δ := δ) p (fun _ => True) (fun steps _ m => Held p steps m) where
  program h := h.holds.program
  attempt {steps shown m i} hi now h := by
    have ha := attempt_attempted m p now i
    refine ⟨⟨ha.program.trans h.holds.program, ha.lineIndex.trans h.holds.lineIndex⟩, fun s hs => ?_⟩
    rcases List.mem_append.mp hs with hs | hs
    · exact h.placed s hs
    · obtain rfl := List.mem_singleton.mp hs
      exact ⟨h.holds, hi⟩
  interlude _ h := ⟨⟨h.holds.program, h.holds.lineIndex⟩, h.placed⟩
  handle {steps shown m a} _ hh h := by
    have hm := handled_after m hh
    have hindex : (m.after a).lineIndex = m.lineIndex := hm.keeps _ fun _ _ _ _ _ _ => rfl
    exact ⟨⟨hm.program.trans h.holds.program, hindex.trans h.holds.lineIndex⟩, h.placed⟩

theorem held_load (m : Machine δ) (p : Program) (options : LoadOptions) : Held p [] (m.load p options).1 :=
  ⟨(Reached.load m options).holds, fun _ hs => absurd hs List.not_mem_nil⟩

theorem Held.afterAll {p : Program} {m : Machine δ} (h : Held p [] m) {moves : List (Move δ)}
    (hmoves : ∀ q options, Move.load q options ∉ moves) : Held p (m.tried moves) (m.afterAll moves) :=
  @Recorded.afterAll δ _ p _ _ [] [] m (held_recorded p) h moves (fun _ _ => trivial) hmoves

/-- Jumps are resolved in the program that was loaded last, whatever was done to the machine and loaded into it
before, and however its lines are ordered and repeated. The index holds a line if an instruction carries it, with the
position of the first one that does, and nothing else. At every attempt at a jump or a branch whose target is read,
the first instruction, in order, whose line is the whole part of the target is where the program goes on if the jump
is taken. If there is none, because no instruction carries that line or because the target is not a number from 0
to 4294967295, the attempt fails with an invalid jump. -/
theorem jump_resolved (c : Capacities) (seed : UInt64) (bench : Bench δ) (before : List (Move δ)) (p : Program)
    (options : LoadOptions) (moves : List (Move δ)) (hmoves : ∀ q options, Move.load q options ∉ moves) :
    let start := (((new c seed bench).afterAll before).load p options).1
    let m := start.afterAll moves
    (∀ (line : UInt32) (position : Nat), m.lineIndex[line]? = some position ↔
      (∃ i, p.instructions[position]? = some i ∧ i.line = line) ∧
        ∀ k < position, ∀ i, p.instructions[k]? = some i → i.line ≠ line) ∧
    ∀ s ∈ start.tried moves, s.instruction.operation.isJump = true → ∀ target taken,
      s.machine.Aims s.instruction target taken →
        (∀ next, p.Lands target next →
          s.machine.GoesTo p s.now s.instruction (if taken then next else s.machine.position + 1)) ∧
        ((∀ next, ¬ p.Lands target next) → s.machine.FailsWith p s.now s.instruction .invalidJump) := by
  intro start m
  have hheld : Held p (start.tried moves) m := (held_load _ p options).afterAll hmoves
  refine ⟨fun line position => ?_, fun s hs hj target taken ha => ⟨fun next hn => ?_, fun hn => ?_⟩⟩
  · rw [hheld.holds.lineIndex]
    exact LineIndex.getElem?_ofProgram_eq_some_iff
  · exact goesTo_of_aims (hheld.placed s hs).1 hj ha hn s.now
  · exact failsWith_of_aims (hheld.placed s hs).1 hj ha hn s.now

/-- A run that follows the load of a program that the machine is large enough for starts with its first instruction. -/
theorem mem_tried_load (c : Capacities) (seed : UInt64) (bench : Bench δ) (before : List (Move δ)) {p : Program}
    (hc : shortage? c p.requirements = none) {i : Instruction} (hi : p.instructions[0]? = some i)
    (options : LoadOptions) (start later budget : Nat) :
    let m := (((new c seed bench).afterAll before).load p options).1
    (⟨m.awakened, later, i⟩ : Step δ) ∈ m.tried [.run ⟨start, later, budget + 1⟩] := by
  intro m
  have hm : m = ((new c seed bench).afterAll before).reset p options := by
    have hsized := (sized_afterAll c seed bench before).reset p options
    show (load _ p options).1 = _
    rw [load_eq, hsized.capacities_eq, hc]
    rfl
  have hp : m.program = some p := by rw [hm]; rfl
  have hposition : m.position = 0 := by rw [hm]; rfl
  have hawake : m.failure = none ∧ m.position < p.size ∧ m.isAsleep start = false := by
    refine ⟨by rw [hm]; rfl, ?_, by rw [hm]; rfl⟩
    rw [hposition]
    exact (Array.getElem?_eq_some_iff.mp hi).1
  have hfirst : p.instructions[m.awakened.position]? = some i := hposition.symm ▸ hi
  simp only [tried, collect, stepsOf, stepsIn, hp, if_pos hawake, loopSteps, hfirst]
  exact List.mem_cons_self

/-- Lines that descend, and one of them twice. -/
def winding : Program where
  target := .debug
  instructions :=
    #[{ operation := .jump false, destination := some (.literal (.ofFloat 7.5)), line := 9 },
      { operation := .nop, line := 7 },
      { operation := .ret, line := 7 }]

/-- A jump to a line of the other program. -/
def astray : Program where
  target := .debug
  instructions :=
    #[{ operation := .jump false, destination := some (.literal (.ofFloat 7.5)), line := 2 },
      { operation := .ret, line := 5 }]

/-- The jump of one program finds the first of two instructions with a line of its own, not what the other program
has there. The jump of the other one, loaded afterwards, does not find that line. -/
theorem jump_resolved_reloading :
    let fresh : Machine Device := new ⟨1, 1, 1, 1⟩ 7 {}
    let once : Move Device := .run ⟨0, 0, 1⟩
    let there := ((fresh.afterAll [.load astray {}, once]).load winding {}).1
    let lost := ((fresh.afterAll [.load winding {}, once]).load astray {}).1
    (∃ s ∈ there.tried [once], s.instruction = winding.instructions[0] ∧ s.machine.Aims s.instruction 7.5 true ∧
      s.machine.GoesTo winding s.now s.instruction 1) ∧
    ∃ s ∈ lost.tried [once], s.instruction = astray.instructions[0] ∧ s.machine.Aims s.instruction 7.5 true ∧
      s.machine.FailsWith astray s.now s.instruction .invalidJump := by
  intro fresh once there lost
  have hmoves : ∀ q options, Move.load q options ∉ [once] := by
    intro q options h
    have he : Move.load q options = .run ⟨0, 0, 1⟩ := List.mem_singleton.mp h
    cases he
  constructor
  · have hs := mem_tried_load ⟨1, 1, 1, 1⟩ 7 {} [.load astray {}, once] (p := winding) rfl rfl {} 0 0 0
    have ha : there.awakened.Aims winding.instructions[0] 7.5 true := aims_of_compares ⟨0, _, 0, _, rfl, rfl, rfl⟩ rfl
    have hlands : winding.Lands 7.5 1 := by
      refine ⟨⟨_, rfl, by decide +kernel⟩, fun k hk i hi => ?_⟩
      obtain rfl : k = 0 := by omega
      cases hi
      decide +kernel
    have h := jump_resolved ⟨1, 1, 1, 1⟩ 7 {} [.load astray {}, once] winding {} [once] hmoves
    exact ⟨_, hs, rfl, ha, (h.2 _ hs rfl 7.5 true ha).1 1 hlands⟩
  · have hs := mem_tried_load ⟨1, 1, 1, 1⟩ 7 {} [.load winding {}, once] (p := astray) rfl rfl {} 0 0 0
    have ha : lost.awakened.Aims astray.instructions[0] 7.5 true := aims_of_compares ⟨0, _, 0, _, rfl, rfl, rfl⟩ rfl
    have hnone : ∀ i ∈ astray.instructions, ¬ NamesLine 7.5 i.line := by decide +kernel
    have h := jump_resolved ⟨1, 1, 1, 1⟩ 7 {} [.load winding {}, once] astray {} [once] hmoves
    refine ⟨_, hs, rfl, ha, (h.2 _ hs rfl 7.5 true ha).2 ?_⟩
    rintro next ⟨⟨i, hi, hnames⟩, -⟩
    exact hnone i (Array.mem_of_getElem? hi) hnames

end Loaded

end Machine

end VirtualProcessor
