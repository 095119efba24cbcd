import VirtualProcessor.Proofs.Arena.Heap
import VirtualProcessor.Proofs.Machine.Trace

/-!
# What an instruction that fails leaves behind

An instruction reads its operands, does its work, and writes its result. Almost everything that can fail comes
before everything that changes the machine: `Spares view x` says of an action that it leaves what `view` sees as it
is if it fails. Apart from the devices, all parts of an instruction spare the machine (`compute_spares`,
`write_spares`, `jumpTo_spares`). There is one gap between them (`perform_error`): an operation may have taken its
result from the machine by the time the destination refuses it. What it takes then is listed by `Spends`: a value
from the stack, a block, or random numbers.

The machines are those that a host can lead to (`Reachable`); their memory is in order, so that a block that is
taken is one entry more in the heap. The statement is `failure_spares`.
-/

namespace VirtualProcessor

/-! ## Drawing -/

namespace Random.Generator

/-- A generator from which more has been drawn. -/
structure Advanced (g g' : Generator) : Prop where
  key : g'.key = g.key
  drawn : g.drawn < g'.drawn

theorem Advanced.next (g : Generator) : g.Advanced g.next.2 := ⟨rfl, by simp [Generator.next]⟩

theorem Advanced.trans {g g' g'' : Generator} (h : g.Advanced g') (h' : g'.Advanced g'') : g.Advanced g'' :=
  ⟨h'.key.trans h.key, h.drawn.trans h'.drawn⟩

theorem Advanced.unit (g : Generator) : g.Advanced g.unit.2 := .next g

theorem Advanced.below (g : Generator) (n : Nat) : g.Advanced (g.below n).2 := by
  unfold Generator.below
  simp only
  split
  · exact (Advanced.next g).trans (.next _)
  · exact .next g

theorem Advanced.between (g : Generator) (low high : Int) : g.Advanced (g.between low high).2 := by
  unfold Generator.between
  simp only
  split
  · exact .next g
  · exact .below g _

end Random.Generator

namespace Machine

variable {δ : Type} {α β γ : Type}

/-! ## Actions that spare the machine -/

/-- An action that leaves what `view` sees of a machine as it is if it fails. -/
def Spares (view : Machine δ → γ) (x : Action δ α) : Prop := ∀ m t m', x.run m = .error t m' → view m' = view m

/-- An action that does not fail. -/
abbrev Sure (x : Action δ α) : Prop := Raises (fun _ => False) x

namespace Spares

variable {view : Machine δ → γ}

theorem of_keeps {x : Action δ α} (hx : Keeps view x) : Spares view x := fun _ _ _ h => hx.of_error h

theorem of_sure {x : Action δ α} (hx : Sure x) : Spares view x := fun m t m' h => (hx m t m' h).elim

theorem pure (a : α) : Spares view (pure a : Action δ α) := of_sure (Raises.pure a)

theorem fail (cause : Fault.Cause) : Spares view (fail cause : Action δ α) := of_keeps (Keeps.fail cause)

/-- What is done first may fail, or else what is done then; only in the first case it must not have changed
anything. -/
theorem bind {x : Action δ α} {f : α → Action δ β} (hx : Keeps view x) (hf : ∀ a, Spares view (f a)) :
    Spares view (x >>= f) := by
  intro m t m' h
  obtain h | ⟨a, m₁, h₁, h⟩ := run_bind_error h
  · exact hx.of_error h
  · exact (hf a m₁ t m' h).trans (hx.of_ok h₁)

theorem bind_sure {x : Action δ α} {f : α → Action δ β} (hx : Spares view x) (hf : ∀ a, Sure (f a)) :
    Spares view (x >>= f) := by
  intro m t m' h
  obtain h | ⟨a, m₁, -, h⟩ := run_bind_error h
  · exact hx m t m' h
  · exact (hf a m₁ t m' h).elim

theorem get_bind {f : Machine δ → Action δ α} (hf : ∀ m, Spares view (f m)) : Spares view (get >>= f) :=
  fun m t m' h => hf m m t m' h

theorem ite {c : Prop} [Decidable c] {x y : Action δ α} (hx : Spares view x) (hy : Spares view y) :
    Spares view (if c then x else y) := by
  split
  · exact hx
  · exact hy

end Spares

/-! ## Parts of an instruction -/

/-- A machine without its devices. -/
def bare (m : Machine δ) : Machine δ := { m with bench := {} }

theorem exists_bench_of_bare {m m' : Machine δ} (h : m'.bare = m.bare) : ∃ bench, m' = { m with bench } := by
  refine ⟨m'.bench, ?_⟩
  show { m'.bare with bench := m'.bench } = _
  rw [h]
  rfl

/-- What is taken from a machine when the result of an operation is computed. -/
structure Spends (op : Operation) (left right : Float) (m m' : Machine δ) : Prop where
  eq : m' =
    { m with
      stackPointer := m'.stackPointer
      memory := m'.memory
      random := m'.random
      bench := m'.bench }
  stackPointer : if op = .pop then m'.stackPointer.toNat + 1 = m.stackPointer.toNat
    else m'.stackPointer = m.stackPointer
  memory : if op = .allocate then ∃ base, m.memory.allocate left = .ok (base, m'.memory)
    else m'.memory = m.memory
  random : m'.random =
    if op = .randomReal then m.random.unit.2
    else if op = .randomInteger then
      (m.random.between (Number.toSignedWide left).toInt (Number.toSignedWide right).toInt).2
    else m.random

namespace Spends

variable {op : Operation} {left right : Float} {m m' : Machine δ}

/-- Most operations take nothing. -/
theorem of_bare (h : m'.bare = m.bare) (hop : op ∉ [.pop, .allocate, .randomReal, .randomInteger]) :
    Spends op left right m m' := by
  obtain ⟨bench, rfl⟩ := exists_bench_of_bare h
  simp only [List.mem_cons, List.not_mem_nil, or_false, not_or] at hop
  obtain ⟨hpop, hallocate, hreal, hinteger⟩ := hop
  refine ⟨rfl, ?_, ?_, ?_⟩
  · rw [if_neg hpop]
  · rw [if_neg hallocate]
  · rw [if_neg hreal, if_neg hinteger]

/-- What happens to the devices before and after does not matter. -/
theorem congr (h : Spends op left right m m') {n n' : Machine δ} (hn : m.bare = n.bare) (hn' : n'.bare = m'.bare) :
    Spends op left right n n' := by
  obtain ⟨bench, rfl⟩ := exists_bench_of_bare hn
  obtain ⟨bench', rfl⟩ := exists_bench_of_bare hn'
  exact ⟨congrArg (fun k => { k with bench := bench' }) h.eq, h.stackPointer, h.memory, h.random⟩

end Spends

theorem popValue_spares : Spares bare (popValue : Action δ Float) := by
  intro m t m' h
  rw [popValue_run] at h
  split at h
  · cases h
  · cases h
    rfl

theorem pushValue_spares (value : Float) : Spares bare (pushValue value : Action δ Unit) := by
  intro m t m' h
  rw [pushValue_run] at h
  split at h
  · cases h
  · cases h
    rfl

theorem sleepFor_spares (now : Nat) (milliseconds : Float) :
    Spares bare (sleepFor now milliseconds : Action δ Unit) := by
  intro m t m' h
  rw [sleepFor_run] at h
  split at h
  · split at h
    · cases h
    · cases h
      rfl
  · cases h

theorem allocateBlock_spares (length : Float) : Spares bare (allocateBlock length : Action δ Float) := by
  intro m t m' h
  rw [allocateBlock_run] at h
  split at h
  · cases h
  · cases h
    rfl

/-- An action that ends with a change of the machine does not fail in it. -/
theorem sure_modify (f : Machine δ → Machine δ) (a : α) :
    Sure (do modify f; pure a : Action δ α) := Raises.bind (Raises.modify f) fun _ => Raises.pure a

theorem drawReal_spares (low high : Float) : Spares bare (drawReal low high : Action δ Float) :=
  Spares.ite (Spares.fail _) (Spares.get_bind fun _ => Spares.of_sure (sure_modify _ _))

theorem drawInteger_spares (low high : Float) : Spares bare (drawInteger low high : Action δ Float) := by
  refine Spares.ite (Spares.fail _) (Spares.ite (Spares.of_keeps (Keeps.throw _)) ?_)
  exact Spares.get_bind fun _ => Spares.of_sure (sure_modify _ _)

section Parts

variable [Peripheral δ]

theorem compute_spares (i : Instruction) (left right : Float) :
    Spares bare (compute i left right : Action δ Float) := by
  have hdestination : Keeps bare (readDestination i.destination : Action δ Float) :=
    readDestination_keeps (fun _ _ => rfl) _
  unfold compute
  split
  · exact popValue_spares
  · exact Spares.of_keeps (peekValue_keeps bare)
  · exact Spares.bind hdestination fun _ => Spares.pure _
  · exact Spares.bind hdestination fun _ => Spares.pure _
  · exact Spares.of_keeps (Keeps.attemptTo _)
  · exact Spares.of_keeps (Keeps.attemptTo _)
  · exact drawReal_spares _ _
  · exact drawInteger_spares _ _
  · exact Spares.pure _
  · exact allocateBlock_spares _
  · exact Spares.of_keeps (Keeps.get_bind fun m => Keeps.attemptTo _)
  · exact Spares.fail _

theorem write_spares (value : Float) (op : Option Operand) : Spares bare (write value op : Action δ Unit) := by
  match op with
  | some (.register index) =>
    exact Spares.get_bind fun m => Spares.ite (Spares.of_sure (Raises.modify _)) (Spares.fail _)
  | some .stackPointer => exact Spares.of_sure (Raises.modify _)
  | some .returnAddress => exact Spares.of_sure (Raises.modify _)
  | some (.device slot index) =>
    refine Spares.bind (placeOf_keeps bare slot) fun place => Spares.get_bind fun m => ?_
    exact Spares.bind (Keeps.modify fun _ => rfl) fun _ => Spares.of_keeps (Keeps.attemptTo _)
  | some (.literal _) => exact Spares.fail _
  | some (.hexLiteral _) => exact Spares.fail _
  | none => exact Spares.fail _

theorem jumpTo_spares (p : Program) (position : Nat) (i : Instruction) (links taken : Bool) :
    Spares bare (jumpTo p position i links taken : Action δ Flow) := by
  refine Spares.bind (readDestination_keeps (fun _ _ => rfl) _) fun target => Spares.get_bind fun m => ?_
  split
  · exact Spares.fail _
  · exact Spares.ite (Spares.ite (Spares.of_sure (sure_modify _ _)) (Spares.pure _)) (Spares.pure _)

theorem check_spares (i : Instruction) (expected : Float) : Spares bare (check i expected : Action δ Unit) :=
  Spares.bind (readDestination_keeps (fun _ _ => rfl) _) fun _ => Spares.ite (Spares.fail _) (Spares.pure _)

/-- The work of an instruction fails without a trace, or its result was computed and cannot be written. -/
theorem perform_error {p : Program} {position now : Nat} {i : Instruction} {left right : Float} {m m' : Machine δ}
    {t : Trouble} (h : (perform p position now i left right).run m = .error t m') :
    m'.bare = m.bare ∨ ∃ value m₁, (compute i left right).run m = .ok value m₁ ∧
      (write value i.destination).run m₁ = .error t m' := by
  unfold perform at h
  split at h
  · exact .inl (Spares.pure _ m t m' h)
  · exact .inl (Spares.pure _ m t m' h)
  · exact .inl (Spares.pure _ m t m' h)
  · exact .inl (Spares.fail _ m t m' h)
  · exact .inl (Spares.pure _ m t m' h)
  · exact .inl ((sleepFor_spares now left).bind_sure (fun _ => Raises.pure _) m t m' h)
  · exact .inl (jumpTo_spares p position i _ _ m t m' h)
  · exact .inl (jumpTo_spares p position i _ _ m t m' h)
  · exact .inl ((pushValue_spares left).bind_sure (fun _ => Raises.pure _) m t m' h)
  · refine .inl (Spares.ite ?_ (Spares.pure _) m t m' h)
    exact (check_spares i left).bind_sure fun _ => Raises.pure _
  · refine .inl (Spares.get_bind (fun n => ?_) m t m' h)
    exact Spares.bind (Keeps.attemptTo _) fun _ => Spares.of_sure (sure_modify _ _)
  · refine .inl (Spares.get_bind (fun n => ?_) m t m' h)
    exact Spares.bind (Keeps.attemptTo _) fun _ => Spares.of_sure (sure_modify _ _)
  · obtain h | ⟨value, m₁, hcompute, h⟩ := run_bind_error h
    · exact .inl (compute_spares i left right m t m' h)
    · obtain h | ⟨u, m₂, -, h⟩ := run_bind_error h
      · exact .inr ⟨value, m₁, hcompute, h⟩
      · cases h

/-! ## Results that are lost -/

omit [Peripheral δ] in
theorem popValue_spends {left right value : Float} {m m' : Machine δ} (h : popValue.run m = .ok value m') :
    Spends .pop left right m m' := by
  rw [popValue_run] at h
  cases htop : m.top? with
  | none =>
    rw [htop] at h
    cases h
  | some x =>
    rw [htop] at h
    cases h
    have hpos : m.stackPointer ≠ 0 := by
      intro h₀
      rw [top?, if_pos h₀] at htop
      cases htop
    refine ⟨rfl, ?_, rfl, rfl⟩
    show (m.stackPointer - 1).toNat + 1 = m.stackPointer.toNat
    have hle : 1 ≤ m.stackPointer := by
      rw [UInt32.le_iff_toNat_le]
      exact Nat.one_le_iff_ne_zero.mpr fun h₀ => hpos (UInt32.toNat_inj.mp h₀)
    rw [UInt32.toNat_sub_of_le _ _ hle]
    exact Nat.sub_add_cancel (UInt32.le_iff_toNat_le.mp hle)

omit [Peripheral δ] in
theorem allocateBlock_spends {left right value : Float} {m m' : Machine δ}
    (h : (allocateBlock left).run m = .ok value m') : Spends .allocate left right m m' := by
  rw [allocateBlock_run] at h
  cases ha : m.memory.allocate left with
  | error refusal =>
    rw [ha] at h
    cases h
  | ok taken =>
    rw [ha] at h
    cases h
    exact ⟨rfl, rfl, ⟨taken.1, ha⟩, rfl⟩

omit [Peripheral δ] in
theorem drawReal_spends {left right value : Float} {m m' : Machine δ}
    (h : (drawReal left right).run m = .ok value m') : Spends .randomReal left right m m' := by
  unfold drawReal at h
  split at h
  · cases h
  · cases h
    exact ⟨rfl, rfl, rfl, rfl⟩

omit [Peripheral δ] in
theorem drawInteger_spends {left right value : Float} {m m' : Machine δ}
    (h : (drawInteger left right).run m = .ok value m') : Spends .randomInteger left right m m' := by
  unfold drawInteger at h
  split at h
  · cases h
  · split at h
    · cases h
    · cases h
      exact ⟨rfl, rfl, rfl, rfl⟩

theorem compute_spends {i : Instruction} {left right value : Float} {m m' : Machine δ}
    (h : (compute i left right).run m = .ok value m') : Spends i.operation left right m m' := by
  have hdestination : Keeps bare (readDestination i.destination : Action δ Float) :=
    readDestination_keeps (fun _ _ => rfl) _
  unfold compute at h
  split at h
  all_goals rename_i hop
  · rw [hop]
    exact popValue_spends h
  · exact .of_bare ((peekValue_keeps bare).of_ok h) (by simp [hop])
  · exact .of_bare ((hdestination.bind fun _ => Keeps.pure _).of_ok h) (by simp [hop])
  · exact .of_bare ((hdestination.bind fun _ => Keeps.pure _).of_ok h) (by simp [hop])
  · exact .of_bare ((Keeps.attemptTo _).of_ok h) (by simp [hop])
  · exact .of_bare ((Keeps.attemptTo _).of_ok h) (by simp [hop])
  · rw [hop]
    exact drawReal_spends h
  · rw [hop]
    exact drawInteger_spends h
  · exact .of_bare ((Keeps.pure left).of_ok h) (by simp [hop])
  · rw [hop]
    exact allocateBlock_spends h
  · exact .of_bare ((Keeps.get_bind fun m => Keeps.attemptTo _).of_ok h) (by simp [hop])
  · cases h

/-- The operands are read and the result is computed, but the destination does not take it. -/
def LosesResult (m : Machine δ) (i : Instruction) (left right : Float) : Prop :=
  ∃ m₁ m₂ m₃ value t m', (readSource i.left).run m = .ok left m₁ ∧ (readSource i.right).run m₁ = .ok right m₂ ∧
    (compute i left right).run m₂ = .ok value m₃ ∧ (write value i.destination).run m₃ = .error t m'

/-- An operation that computes a result does nothing else. -/
theorem perform_of_compute {i : Instruction} {left right value : Float} {m m' : Machine δ}
    (h : (compute i left right).run m = .ok value m') (p : Program) (position now : Nat) :
    (perform p position now i left right : Action δ Flow) = (do
      let value ← compute i left right
      write value i.destination
      pure .next) := by
  unfold perform
  split
  case h_13 => rfl
  -- The other operations have no result to compute.
  all_goals
    rename_i hop
    simp only [compute, hop] at h
    cases h

section Execute

variable {p : Program} {position now : Nat} {i : Instruction} {left right : Float} {m m' : Machine δ} {t : Trouble}

theorem LosesResult.spends (hl : m.LosesResult i left right) (h : (execute p position now i).run m = .error t m') :
    Spends i.operation left right m m' := by
  obtain ⟨m₁, m₂, m₃, value, t', m'', hleft, hright, hcompute, hwrite⟩ := hl
  -- There is one way only in which the instruction can go: it has failed in this write.
  have hrun : (execute p position now i).run m = .error t' m'' := by
    rw [execute, EStateM.run_bind, hleft]
    simp only
    rw [EStateM.run_bind, hright]
    simp only
    rw [perform_of_compute hcompute, EStateM.run_bind, hcompute]
    simp only
    rw [EStateM.run_bind, hwrite]
  rw [hrun] at h
  cases h
  have hsources : m₂.bare = m.bare :=
    ((readSource_keeps (fun _ _ => rfl) _).of_ok hright).trans ((readSource_keeps (fun _ _ => rfl) _).of_ok hleft)
  exact (compute_spends hcompute).congr hsources (write_spares _ _ m₃ t m' hwrite)

theorem bare_of_error (hl : ∀ left right, ¬ m.LosesResult i left right)
    (h : (execute p position now i).run m = .error t m') : m'.bare = m.bare := by
  have hsource (op : Option Operand) : Keeps bare (readSource op : Action δ Float) :=
    readSource_keeps (fun _ _ => rfl) op
  obtain h | ⟨left, m₁, hleft, h⟩ := run_bind_error h
  · exact (hsource i.left).of_error h
  obtain h | ⟨right, m₂, hright, h⟩ := run_bind_error h
  · exact ((hsource i.right).of_error h).trans ((hsource i.left).of_ok hleft)
  obtain h | ⟨value, m₃, hcompute, hwrite⟩ := perform_error h
  · exact (h.trans ((hsource i.right).of_ok hright)).trans ((hsource i.left).of_ok hleft)
  · exact absurd ⟨m₁, m₂, m₃, value, t, m', hleft, hright, hcompute, hwrite⟩ (hl left right)

end Execute

/-! ## Reachable machines -/

/-- What a host can lead a new machine to, between its calls and before each attempt in the course of one. -/
inductive Reachable (c : Capacities) (seed : UInt64) (bench : Bench δ) : Machine δ → Prop
  | between (moves : List (Move δ)) : Reachable c seed bench ((new c seed bench).afterAll moves)
  | within (moves : List (Move δ)) {step : Step δ} (h : step ∈ (new c seed bench).tried moves) :
    Reachable c seed bench step.machine

namespace Kept

variable {P : Machine δ → Prop} {m : Machine δ}

theorem reachable (hP : Kept (fun _ => True) P) {c : Capacities} {seed : UInt64} {bench : Bench δ}
    (h : P (new c seed bench)) (hm : Reachable c seed bench m) : P m := by
  cases hm with
  | between moves => exact hP.afterAll h fun _ _ _ => trivial
  | within moves hstep => exact (hP.tried h fun _ _ _ => trivial).2 _ hstep

end Kept

theorem Workspace.Change.wellTagged {w w' : Workspace δ} (h : Workspace.Change w w') (hw : w.memory.WellTagged) :
    w'.memory.WellTagged := by
  cases h with
  | allocate h =>
    obtain ⟨n, -, -, hgap, rfl⟩ := Arena.allocate_ok h
    exact hw.take hgap
  | free h =>
    obtain ⟨base, hbase, hown, rfl⟩ := Arena.free_ok h
    exact hw.give (Nat.ne_of_gt (Arena.address_eq_ok_iff.mp hbase).2.1) hown
  | store h =>
    obtain ⟨x, hx, rfl⟩ := Arena.store_ok h
    exact hw.write (Arena.allocated_eq_ok_iff.mp hx).2 _
  | _ => exact hw

/-- Nothing that can happen to a machine puts its memory into disorder. -/
theorem wellTagged_kept : Kept (δ := δ) (fun _ => True) (·.memory.WellTagged) where
  load {m p} _ options h := by
    rw [load_eq]
    show m.memory.clear.WellTagged
    rw [h.clear_eq]
    exact .new _
  attempt {m p i} _ _ _ now h := by
    have hchanges := attempt_changes m p now i
    show (m.attempt p now i).machine.workspace.memory.WellTagged
    generalize (m.attempt p now i).machine.workspace = w at hchanges
    induction hchanges with
    | refl => exact h
    | tail _ hstep ih => exact hstep.wellTagged ih
  interlude _ h := h
  unloaded _ h := h
  handle {m m'} hm h := by
    rwa [hm.keeps (·.memory) fun _ _ _ _ _ _ => rfl]

/-- An instruction of a program fails. Apart from the devices it leaves the machine exactly as it was, unless it has
computed a result that its destination does not take. Even then only what the result was taken from has changed:
the stack pointer has gone down by one for `pop`, for `allocate` there is one block more in the memory, the one that
would be there had the instruction succeeded, and for a random number the generator has been drawn from. The attempt
keeps the failure and nothing else. -/
theorem failure_spares {c : Capacities} {seed : UInt64} {bench : Bench δ} {m : Machine δ}
    (hm : Reachable c seed bench m) (p : Program) (now : Nat) (i : Instruction) {cause : Fault.Cause}
    {m' : Machine δ} (h : (execute p m.position now i).run m = .error (.fault cause) m') :
    (m.attempt p now i).machine = m'.latch (.failed cause (locationOf i)) ∧
      ((∀ left right, ¬ m.LosesResult i left right) → m' = { m with bench := m'.bench }) ∧
      ∀ left right, m.LosesResult i left right →
        m' =
          { m with
            stackPointer := m'.stackPointer
            memory := m'.memory
            random := m'.random
            bench := m'.bench } ∧
        (if i.operation = .pop then m'.stackPointer.toNat + 1 = m.stackPointer.toNat
          else m'.stackPointer = m.stackPointer) ∧
        (if i.operation = .allocate then
          ∃ base n, m.memory.allocate left = .ok (base, m'.memory) ∧ Number.wholePart? left = some n ∧ 0 < n ∧
            base ∉ m.memory.heap ∧ m'.memory.heap = m.memory.heap.insert base (List.replicate n 0)
          else m'.memory = m.memory) ∧
        (m'.random =
          if i.operation = .randomReal then m.random.unit.2
          else if i.operation = .randomInteger then
            (m.random.between (Number.toSignedWide left).toInt (Number.toSignedWide right).toInt).2
          else m.random) ∧
        (i.operation = .randomReal ∨ i.operation = .randomInteger → m.random.Advanced m'.random) := by
  refine ⟨?_, fun hl => ?_, fun left right hl => ?_⟩
  · rw [attempt, h]
  · obtain ⟨bench', rfl⟩ := exists_bench_of_bare (bare_of_error hl h)
    rfl
  · obtain ⟨heq, hpointer, hmemory, hrandom⟩ := hl.spends h
    refine ⟨heq, hpointer, ?_, hrandom, fun hdraws => ?_⟩
    · split at hmemory
      · rename_i hop
        obtain ⟨base, hallocate⟩ := hmemory
        have hw : m.memory.WellTagged := wellTagged_kept.reachable (.new c.memory) hm
        obtain ⟨n, hlength, hpos, hnew, -, hheap, -⟩ := hw.allocate_refines hallocate
        rw [if_pos hop]
        exact ⟨base, n, hallocate, hlength, hpos, hnew, hheap⟩
      · rename_i hop
        rwa [if_neg hop]
    · rw [hrandom]
      rcases hdraws with hop | hop
      · rw [if_pos hop]
        exact .unit _
      · rw [if_neg (by simp [hop]), if_pos hop]
        exact .between _ _ _

end Parts

/-- The base of a block, and then a value from the stack, are meant for a register that is not there. -/
theorem failure_spares_unwritten :
    let length := Number.Stored.ofFloat 2.5
    let m : Machine Device := (new ⟨1, 1, 4, 0⟩ 7 {}).afterAll [.push 5]
    let allocating : Instruction :=
      { operation := .allocate, destination := some (.register 9), left := some (.literal length), line := 1 }
    let popping : Instruction := { operation := .pop, destination := some (.register 9), line := 2 }
    (m.LosesResult allocating length.toFloat 0 ∧
      ∃ m', (execute pausing m.position 0 allocating).run m = .error (.fault .registerOutOfBounds) m' ∧
        m'.stackPointer = m.stackPointer ∧ m'.memory.heap = m.memory.heap.insert 1 [0, 0]) ∧
    m.LosesResult popping 0 0 ∧
      ∃ m', (execute pausing m.position 0 popping).run m = .error (.fault .registerOutOfBounds) m' ∧
        m'.stackPointer.toNat + 1 = m.stackPointer.toNat ∧ m'.memory = m.memory := by
  intro length m allocating popping
  have hm : Reachable ⟨1, 1, 4, 0⟩ 7 {} m := .between [.push 5]
  refine ⟨?_, ?_⟩
  · have hbase : (m.memory.allocate length.toFloat).map Prod.fst = .ok 1 := by decide +kernel
    have hlength : Number.wholePart? length.toFloat = some 2 := by decide +kernel
    obtain ⟨⟨base, memory⟩, hallocate, rfl⟩ := Arena.map_eq_ok hbase
    have hcompute : (compute allocating length.toFloat 0).run m = .ok (Float.ofNat 1) { m with memory } := by
      show (allocateBlock length.toFloat).run m = _
      rw [allocateBlock_run, hallocate]
    have hlost : m.LosesResult allocating length.toFloat 0 :=
      ⟨m, m, _, _, .fault .registerOutOfBounds, _, rfl, rfl, hcompute, rfl⟩
    have hrun : (execute pausing m.position 0 allocating).run m =
        .error (.fault .registerOutOfBounds) { m with memory } := by
      show ((compute allocating length.toFloat 0 >>= fun value => write value allocating.destination >>= fun _ =>
        pure .next : Action Device Flow)).run m = _
      rw [EStateM.run_bind, hcompute]
      rfl
    obtain ⟨-, -, hspends⟩ := failure_spares hm pausing 0 allocating hrun
    obtain ⟨-, hpointer, ⟨base, n, hbase', hn, -, -, hheap⟩, -⟩ := hspends _ _ hlost
    obtain rfl : base = 1 := by
      rw [hallocate] at hbase'
      exact (congrArg Prod.fst (Except.ok.inj hbase')).symm
    obtain rfl : n = 2 := Option.some.inj (hn.symm.trans hlength)
    exact ⟨hlost, _, hrun, hpointer, hheap⟩
  · have hlost : m.LosesResult popping 0 0 :=
      ⟨m, m, _, _, .fault .registerOutOfBounds, _, rfl, rfl, rfl, rfl⟩
    have hrun : (execute pausing m.position 0 popping).run m =
        .error (.fault .registerOutOfBounds) { m with stackPointer := m.stackPointer - 1 } := rfl
    obtain ⟨-, -, hspends⟩ := failure_spares hm pausing 0 popping hrun
    obtain ⟨-, hpointer, hmemory, -⟩ := hspends _ _ hlost
    exact ⟨hlost, _, hrun, hpointer, hmemory⟩

end Machine

end VirtualProcessor
