import VirtualProcessor.Proofs.Machine.Failure

/-!
# One stack for host and program

The stack of a machine is worked on from two sides: the host pushes and pops values, and so do instructions. What
both do is `Pushed` or `Popped`, and they can do it in the same states (`attempt_push`, `attempt_pop`). In the words
of what is on the stack (`contents`) these are `cons` and its inverse (`Pushed.contents`, `Popped.contents`), so a
sequence of them takes back in reverse order what it has put there, whoever has a turn (`pushAll_spec`,
`popAll_spec`).

No other instruction touches the stack, unless it writes to the stack pointer. Without such writes the stack pointer
stays `Within` the stack, whatever a host does (`within_keptWhile`). Together these are the statement
`stack_shared`.
-/

namespace VirtualProcessor.Machine

variable {δ : Type}

/-! ## The stack as a list -/

/-- What is on the stack, the top first. -/
def contents (m : Machine δ) : List Float := (m.stack.toList.take m.stackPointer.toNat).reverse

/-- The stack pointer is inside the stack or just behind it. -/
def Within (m : Machine δ) : Prop := m.stackPointer.toNat ≤ m.stack.size

/-- A value was pushed: it is in the cell that the stack pointer named, which names the next one now. -/
structure Pushed (value : Float) (m m' : Machine δ) : Prop where
  room : m.stackPointer.toNat < m.stack.size
  stack : m'.stack = m.stack.setIfInBounds m.stackPointer.toNat value
  stackPointer : m'.stackPointer = m.stackPointer + 1

/-- A value was popped: it is in the cell in front of the one that the stack pointer named. -/
structure Popped (value : Float) (m m' : Machine δ) : Prop where
  top : m.top? = some value
  stack : m'.stack = m.stack
  stackPointer : m'.stackPointer = m.stackPointer - 1

theorem length_contents {m : Machine δ} (h : m.Within) : m.contents.length = m.stackPointer.toNat := by
  rw [contents, List.length_reverse, List.length_take, Array.length_toList]
  exact Nat.min_eq_left h

/-- The cells below the stack pointer are what is on the stack. -/
theorem getElem?_stack {m : Machine δ} {x : Nat} (hx : x < m.stackPointer.toNat) :
    m.stack[x]? = m.contents.reverse[x]? := by
  rw [contents, List.reverse_reverse, List.getElem?_take_of_lt hx, Array.getElem?_toList]

theorem top?_eq_some_iff {m : Machine δ} {value : Float} :
    m.top? = some value ↔ 0 < m.stackPointer.toNat ∧ m.stack[m.stackPointer.toNat - 1]? = some value := by
  have hzero : m.stackPointer = 0 ↔ m.stackPointer.toNat = 0 :=
    ⟨fun h => by rw [h]; rfl, fun h => UInt32.toNat_inj.mp h⟩
  unfold top?
  split
  · rename_i h
    simp [hzero.mp h]
  · rename_i h
    exact (and_iff_right (Nat.pos_of_ne_zero fun e => h (hzero.mpr e))).symm

/-- There is a value to take just when the stack pointer is between 1 and the size of the stack. -/
theorem isSome_top?_iff {m : Machine δ} :
    m.top?.isSome = true ↔ 1 ≤ m.stackPointer.toNat ∧ m.stackPointer.toNat ≤ m.stack.size := by
  simp only [Option.isSome_iff_exists, top?_eq_some_iff, exists_and_left, Array.getElem?_eq_some_iff]
  constructor
  · rintro ⟨hpos, value, hlt, -⟩
    omega
  · rintro ⟨hpos, hle⟩
    exact ⟨hpos, _, by omega, rfl⟩

section Effects

variable {value : Float} {m m' : Machine δ}

theorem Pushed.toNat_stackPointer (h : Pushed value m m') (hsize : m.stack.size < UInt32.size) :
    m'.stackPointer.toNat = m.stackPointer.toNat + 1 := by
  have hroom := h.room
  rw [h.stackPointer, UInt32.toNat_add]
  refine Nat.mod_eq_of_lt ?_
  show m.stackPointer.toNat + 1 < UInt32.size
  omega

theorem Popped.toNat_stackPointer (h : Popped value m m') : m'.stackPointer.toNat + 1 = m.stackPointer.toNat := by
  have hpos : 0 < m.stackPointer.toNat := (top?_eq_some_iff.mp h.top).1
  rw [h.stackPointer, UInt32.toNat_sub_of_le]
  · show m.stackPointer.toNat - 1 + 1 = _
    omega
  · exact UInt32.le_iff_toNat_le.mpr hpos

theorem Pushed.size_stack (h : Pushed value m m') : m'.stack.size = m.stack.size := by
  rw [h.stack, Array.size_setIfInBounds]

theorem Pushed.within (h : Pushed value m m') : m'.Within := by
  have hroom := h.room
  have hle : m'.stackPointer.toNat ≤ m.stackPointer.toNat + 1 := by
    rw [h.stackPointer, UInt32.toNat_add]
    exact Nat.mod_le _ _
  rw [Within, h.size_stack]
  omega

theorem Popped.within (h : Popped value m m') : m'.Within := by
  have hle := (isSome_top?_iff.mp (Option.isSome_of_eq_some h.top)).2
  have hdown := h.toNat_stackPointer
  rw [Within, h.stack]
  omega

theorem Pushed.contents (h : Pushed value m m') (hsize : m.stack.size < UInt32.size) :
    m'.contents = value :: m.contents := by
  have hroom : m.stackPointer.toNat < m.stack.toList.length := by
    rw [Array.length_toList]
    exact h.room
  rw [Machine.contents, h.toNat_stackPointer hsize, h.stack, Array.toList_setIfInBounds,
    List.take_succ_eq_append_getElem (by rwa [List.length_set]), List.getElem_set_self,
    List.take_set_of_le (Nat.le_refl _), List.reverse_append]
  rfl

theorem Popped.contents (h : Popped value m m') : m.contents = value :: m'.contents := by
  obtain ⟨-, htop⟩ := top?_eq_some_iff.mp h.top
  have hdown := h.toNat_stackPointer
  rw [show m.stackPointer.toNat - 1 = m'.stackPointer.toNat by omega, ← Array.getElem?_toList] at htop
  obtain ⟨hlt, hget⟩ := List.getElem?_eq_some_iff.mp htop
  rw [Machine.contents, Machine.contents, ← hdown, h.stack, List.take_succ_eq_append_getElem hlt, hget,
    List.reverse_append]
  rfl

end Effects

/-! ## Pushing and popping from either side -/

theorem push_eq_some {m m' : Machine δ} {value : Float} (h : m.push value = some m') : Pushed value m m' := by
  unfold push at h
  split at h
  · cases h
    exact ⟨‹_›, rfl, rfl⟩
  · cases h

theorem isSome_push_iff {m : Machine δ} {value : Float} :
    (m.push value).isSome = true ↔ m.stackPointer.toNat < m.stack.size := by
  unfold push
  split
  · exact iff_of_true rfl ‹_›
  · exact iff_of_false Bool.false_ne_true ‹_›

theorem pop_eq_some {m m' : Machine δ} {value : Float} (h : m.pop = some (value, m')) : Popped value m m' := by
  obtain ⟨top, htop, he⟩ := Option.map_eq_some_iff.mp h
  cases he
  exact ⟨htop, rfl, rfl⟩

theorem isSome_pop {m : Machine δ} : m.pop.isSome = m.top?.isSome := Option.isSome_map

/-- The stack and the stack pointer. -/
def stacked (m : Machine δ) : Array Float × UInt32 := (m.stack, m.stackPointer)

theorem stacked_aside : Aside (δ := δ) stacked where
  registers _ _ := rfl
  memory _ _ := rfl
  random _ _ := rfl
  bench _ _ := rfl
  wakeAt _ _ := rfl

theorem Within.congr {m m' : Machine δ} (h : m.Within) (hs : m'.stacked = m.stacked) : m'.Within := by
  obtain ⟨hstack, hpointer⟩ := Prod.mk.inj hs
  rw [Within, hstack, hpointer]
  exact h

section Work

variable [Peripheral δ] {i : Instruction} {m m₁ : Machine δ}

theorem stacked_attempt (m : Machine δ) (p : Program) (now : Nat) (i : Instruction) :
    (m.attempt p now i).machine.stacked = (finalOf ((execute p m.position now i).run m)).stacked :=
  congrArg (fun w => (w.stack, w.stackPointer)) (workspace_attempt m p now i)

theorem stacked_sources {values : Float × Float} (h : (sources i).run m = .ok values m₁) : m₁.stacked = m.stacked :=
  (sources_keeps stacked_aside.bench i).of_ok h

theorem perform_push (hop : i.operation = .push) (p : Program) (position now : Nat) (left right : Float)
    (m : Machine δ) :
    (perform p position now i left right).run m =
      if m.stackPointer.toNat < m.stack.size then
        .ok .next
          { m with
            stack := m.stack.setIfInBounds m.stackPointer.toNat left
            stackPointer := m.stackPointer + 1 }
      else .error (.fault .stackOverflow) m := by
  simp only [perform, hop]
  rw [EStateM.run_bind, pushValue_run]
  by_cases hroom : m.stackPointer.toNat < m.stack.size
  · rw [if_pos hroom, if_pos hroom]
    rfl
  · rw [if_neg hroom, if_neg hroom]

/-- The instruction `push` comes through if there is room for the value of its operand, and pushes it. -/
theorem attempt_push (hop : i.operation = .push) {value right : Float}
    (hs : (sources i).run m = .ok (value, right) m₁) (p : Program) (now : Nat) :
    (m.comesThrough p now i = true ↔ m.stackPointer.toNat < m.stack.size) ∧
      (m.stackPointer.toNat < m.stack.size → Pushed value m (m.attempt p now i).machine) := by
  obtain ⟨hstack, hpointer⟩ := Prod.mk.inj (stacked_sources hs)
  have hrun := (execute_of_sources hs p m.position now).trans (perform_push hop p m.position now value right m₁)
  rw [hstack, hpointer] at hrun
  have hafter := stacked_attempt m p now i
  unfold comesThrough
  by_cases hroom : m.stackPointer.toNat < m.stack.size
  · rw [if_pos hroom] at hrun
    rw [hrun] at hafter ⊢
    obtain ⟨hstack', hpointer'⟩ := Prod.mk.inj hafter
    exact ⟨iff_of_true rfl hroom, fun _ => ⟨hroom, hstack', hpointer'⟩⟩
  · rw [if_neg hroom] at hrun
    rw [hrun]
    exact ⟨iff_of_false Bool.false_ne_true hroom, fun h => absurd h hroom⟩

theorem write_register_run {r : UInt32} (hr : r.toNat < m.registers.size) (value : Float) :
    (write value (some (.register r)) : Action δ Unit).run m =
      .ok () { m with registers := m.registers.setIfInBounds r.toNat value } := by
  rw [write, run_get_bind, if_pos hr]
  rfl

theorem perform_pop (hop : i.operation = .pop) (p : Program) (position now : Nat) (left right : Float) :
    (perform p position now i left right : Action δ Flow) = (do
      let value ← popValue
      write value i.destination
      pure .next) := by
  simp only [perform, compute, hop]

theorem perform_pop_none (hop : i.operation = .pop) (htop : m.top? = none) (p : Program) (position now : Nat)
    (left right : Float) :
    (perform p position now i left right).run m = .error (.fault .stackOverflow) m := by
  rw [perform_pop hop, EStateM.run_bind, popValue_run, htop]

theorem perform_pop_some (hop : i.operation = .pop) {r : UInt32} (hd : i.destination = some (.register r))
    (hr : r.toNat < m.registers.size) {value : Float} (htop : m.top? = some value) (p : Program) (position now : Nat)
    (left right : Float) :
    (perform p position now i left right).run m =
      .ok .next
        { m with
          stackPointer := m.stackPointer - 1
          registers := m.registers.setIfInBounds r.toNat value } := by
  rw [perform_pop hop, EStateM.run_bind, popValue_run, htop, hd]
  show (write value (some (.register r)) >>= fun _ => pure .next : Action δ Flow).run
    { m with stackPointer := m.stackPointer - 1 } = _
  rw [EStateM.run_bind, write_register_run (by exact hr)]
  rfl

/-- The instruction `pop` into a register that is there comes through if there is a value to take, and puts it
there. -/
theorem attempt_pop (hop : i.operation = .pop) {r : UInt32} (hd : i.destination = some (.register r))
    (hr : r.toNat < m.registers.size) {values : Float × Float} (hs : (sources i).run m = .ok values m₁)
    (p : Program) (now : Nat) :
    m.comesThrough p now i = m.top?.isSome ∧
      ∀ value, m.top? = some value →
        Popped value m (m.attempt p now i).machine ∧ (m.attempt p now i).machine.register? r.toNat = some value := by
  obtain ⟨hstack, hpointer⟩ := Prod.mk.inj (stacked_sources hs)
  have htop : m₁.top? = m.top? := by rw [top?, top?, hstack, hpointer]
  have hkeeps : Keeps registers (sources i : Action δ (Float × Float)) := sources_keeps (fun _ _ => rfl) i
  have hr₁ : r.toNat < m₁.registers.size := by
    rw [hkeeps.of_ok hs]
    exact hr
  have hrun := execute_of_sources hs p m.position now
  have hafter := workspace_attempt m p now i
  unfold comesThrough
  cases hvalue : m.top? with
  | none =>
    rw [hrun, perform_pop_none hop (htop.trans hvalue)]
    exact ⟨rfl, fun value h => by cases h⟩
  | some value =>
    rw [perform_pop_some hop hd hr₁ (htop.trans hvalue)] at hrun
    rw [hrun] at hafter ⊢
    refine ⟨rfl, fun value' h => ?_⟩
    obtain rfl : value = value' := Option.some.inj h
    refine ⟨⟨hvalue, (congrArg Workspace.stack hafter).trans hstack, ?_⟩, ?_⟩
    · exact (congrArg Workspace.stackPointer hafter).trans (congrArg (· - 1) hpointer)
    · show (m.attempt p now i).machine.workspace.registers[r.toNat]? = some value
      rw [congrArg Workspace.registers hafter]
      exact Array.getElem?_setIfInBounds_self_of_lt hr₁

end Work

/-! ## Turns -/

/-- Who has a turn: the host, or the program with an instruction. -/
inductive Party where
  | host
  | program (p : Program) (now : Nat) (i : Instruction)

section Turns

variable [Peripheral δ]

namespace Party

/-- The machine after a value was pushed. -/
def push (party : Party) (m : Machine δ) (value : Float) : Option (Machine δ) :=
  match party with
  | host => m.push value
  | program p now i => if m.comesThrough p now i then some (m.attempt p now i).machine else none

/-- The value that was popped and the machine after it. What an instruction pops is in its register. -/
def pop (party : Party) (m : Machine δ) : Option (Float × Machine δ) :=
  match party with
  | host => m.pop
  | program p now i =>
    if m.comesThrough p now i then
      match i.destination with
      | some (.register r) => ((m.attempt p now i).machine.register? r.toNat).map (·, (m.attempt p now i).machine)
      | _ => none
    else none

/-- What a party has its turn with is a `push` of a value, whose operands can be read. -/
def Pushes (party : Party) (m : Machine δ) (value : Float) : Prop :=
  match party with
  | host => True
  | program _ _ i => i.operation = .push ∧ ∃ right m₁, (sources i).run m = .ok (value, right) m₁

/-- What a party has its turn with is a `pop` into a register that is there, whose operands can be read. -/
def Pops (party : Party) (m : Machine δ) : Prop :=
  match party with
  | host => True
  | program _ _ i => i.operation = .pop ∧ (∃ r, i.destination = some (.register r) ∧ r.toNat < m.registers.size) ∧
      ∃ values m₁, (sources i).run m = .ok values m₁

variable {party : Party} {m : Machine δ} {value : Float}

theorem exists_push (h : party.Pushes m value) (hroom : m.stackPointer.toNat < m.stack.size) :
    ∃ m', party.push m value = some m' ∧ Pushed value m m' := by
  cases party with
  | host =>
    obtain ⟨m', hm'⟩ := Option.isSome_iff_exists.mp (isSome_push_iff.mpr hroom)
    exact ⟨m', hm', push_eq_some hm'⟩
  | program p now i =>
    obtain ⟨hop, right, m₁, hs⟩ := h
    obtain ⟨hcomes, hpushed⟩ := attempt_push hop hs p now
    exact ⟨_, if_pos (hcomes.mpr hroom), hpushed hroom⟩

theorem exists_pop (h : party.Pops m) (htop : m.top? = some value) :
    ∃ m', party.pop m = some (value, m') ∧ Popped value m m' := by
  cases party with
  | host =>
    refine ⟨{ m with stackPointer := m.stackPointer - 1 }, ?_, htop, rfl, rfl⟩
    rw [pop, Machine.pop, htop]
    rfl
  | program p now i =>
    obtain ⟨hop, ⟨r, hd, hr⟩, values, m₁, hs⟩ := h
    obtain ⟨hcomes, hpopped⟩ := attempt_pop hop hd hr hs p now
    obtain ⟨heffect, hvalue⟩ := hpopped value htop
    refine ⟨(m.attempt p now i).machine, ?_, heffect⟩
    rw [pop, if_pos (by rw [hcomes, htop]; rfl), hd]
    simp only
    rw [hvalue]
    rfl

end Party

/-- The machine after values were pushed one after the other. -/
def pushAll : List (Party × Float) → Machine δ → Option (Machine δ)
  | [], m => some m
  | (party, value) :: rest, m => (party.push m value).bind (pushAll rest)

/-- The values that were popped one after the other, and the machine after it. -/
def popAll : List Party → Machine δ → Option (List Float × Machine δ)
  | [], m => some ([], m)
  | party :: rest, m =>
    (party.pop m).bind fun (value, m') => (popAll rest m').map fun (values, n) => (value :: values, n)

/-- Whenever a party has a turn it has it with a `push` of its value. -/
def PushesAll : List (Party × Float) → Machine δ → Prop
  | [], _ => True
  | (party, value) :: rest, m => party.Pushes m value ∧ ∀ m', party.push m value = some m' → PushesAll rest m'

/-- Whenever a party has a turn it has it with a `pop`. -/
def PopsAll : List Party → Machine δ → Prop
  | [], _ => True
  | party :: rest, m => party.Pops m ∧ ∀ value m', party.pop m = some (value, m') → PopsAll rest m'

theorem pushAll_spec {turns : List (Party × Float)} {m : Machine δ} (h : PushesAll turns m)
    (hsize : m.stack.size < UInt32.size) (hroom : m.stackPointer.toNat + turns.length ≤ m.stack.size) :
    ∃ m', pushAll turns m = some m' ∧ m'.Within ∧ m'.contents = (turns.map Prod.snd).reverse ++ m.contents := by
  induction turns generalizing m with
  | nil => exact ⟨m, rfl, hroom, rfl⟩
  | cons turn rest ih =>
    obtain ⟨party, value⟩ := turn
    obtain ⟨hturn, hrest⟩ := h
    rw [List.length_cons] at hroom
    obtain ⟨m₁, hpush, hpushed⟩ := Party.exists_push hturn (by omega)
    have hpointer := hpushed.toNat_stackPointer hsize
    obtain ⟨m', hall, hwithin, hcontents⟩ := ih (hrest m₁ hpush) (by rwa [hpushed.size_stack])
      (by rw [hpushed.size_stack, hpointer]; omega)
    refine ⟨m', by rw [pushAll, hpush]; exact hall, hwithin, ?_⟩
    rw [hcontents, hpushed.contents hsize, List.map_cons, List.reverse_cons, List.append_assoc]
    rfl

theorem popAll_spec {turns : List Party} {m : Machine δ} (h : PopsAll turns m) (hwithin : m.Within)
    {values below : List Float} (hlength : values.length = turns.length) (hcontents : m.contents = values ++ below) :
    ∃ m', popAll turns m = some (values, m') ∧ m'.Within ∧ m'.contents = below := by
  induction turns generalizing m values with
  | nil =>
    obtain rfl : values = [] := List.eq_nil_of_length_eq_zero hlength
    exact ⟨m, rfl, hwithin, hcontents⟩
  | cons party rest ih =>
    obtain _ | ⟨value, values⟩ := values
    · cases hlength
    obtain ⟨hturn, hrest⟩ := h
    -- There is something on the stack, so there is a top of it, which is the first of the values.
    have hpos : 0 < m.stackPointer.toNat := by
      rw [← length_contents hwithin, hcontents]
      exact Nat.succ_pos _
    obtain ⟨top, htop⟩ := Option.isSome_iff_exists.mp (isSome_top?_iff.mpr ⟨hpos, hwithin⟩)
    obtain ⟨m₁, hpop, hpopped⟩ := Party.exists_pop hturn htop
    obtain ⟨rfl, hbelow⟩ := List.cons.inj (hpopped.contents.symm.trans hcontents)
    obtain ⟨m', hall, hwithin', hcontents'⟩ :=
      ih (hrest top m₁ hpop) hpopped.within (Nat.succ.inj hlength) hbelow
    refine ⟨m', ?_, hwithin', hcontents'⟩
    rw [popAll, hpop]
    show (popAll rest m₁).map _ = _
    rw [hall]
    rfl

end Turns

/-! ## The stack pointer stays within the stack -/

section Bounds

variable [Peripheral δ]

/-- The work of an instruction that does not write to the stack pointer keeps it within the stack. -/
theorem within_execute {m : Machine δ} (h : m.Within) {i : Instruction} (hd : i.destination ≠ some .stackPointer)
    (p : Program) (position now : Nat) : (finalOf ((execute p position now i).run m)).Within := by
  cases hs : (sources i).run m with
  | error t m₁ =>
    rw [execute_eq, EStateM.run_bind, hs]
    exact h.congr ((sources_keeps stacked_aside.bench i).of_error hs)
  | ok values m₁ =>
    have h₁ : m₁.Within := h.congr (stacked_sources hs)
    rw [execute_of_sources hs]
    by_cases hpush : i.operation = .push
    · rw [perform_push hpush]
      split
      · exact Pushed.within ⟨‹_›, rfl, rfl⟩
      · exact h₁
    by_cases hpop : i.operation = .pop
    · have hwrite (value : Float) :
          Keeps stacked (do write value i.destination; pure .next : Action δ Flow) :=
        (write_keeps stacked_aside value (fun e => absurd e hd) fun _ _ _ => rfl).bind fun _ => Keeps.pure _
      rw [perform_pop hpop, EStateM.run_bind, popValue_run]
      cases htop : m₁.top? with
      | none => exact h₁
      | some value =>
        have hpopped : Popped value m₁ { m₁ with stackPointer := m₁.stackPointer - 1 } := ⟨htop, rfl, rfl⟩
        exact hpopped.within.congr (hwrite value _)
    · refine h₁.congr (perform_keeps stacked_aside p position now (fun hstack => ?_) (fun _ _ _ => rfl) _ _ m₁)
      rcases hstack with e | e | e
      · exact absurd e hpush
      · exact absurd e hpop
      · exact absurd e hd

theorem within_attempt {m : Machine δ} (h : m.Within) {i : Instruction} (hd : i.destination ≠ some .stackPointer)
    (p : Program) (now : Nat) : (m.attempt p now i).machine.Within :=
  (within_execute h hd p m.position now).congr (stacked_attempt m p now i)

theorem within_keptWhile : KeptWhile (δ := δ) (fun _ => True) (·.destination ≠ some .stackPointer) Within where
  load {m p} _ options _ := by
    rw [load_eq]
    exact Nat.zero_le _
  attempt _ _ _ hd now h := within_attempt h hd _ now
  interlude _ h := h
  unloaded _ h := h
  handle {m a} ha h := by
    cases a with
    | load => cases ha
    | run => cases ha
    | push value =>
      show ((m.push value).getD m).Within
      cases hpush : m.push value with
      | none => exact h
      | some m' => exact (push_eq_some hpush).within
    | pop =>
      show ((m.pop.map Prod.snd).getD m).Within
      cases hpop : m.pop with
      | none => exact h
      | some popped => exact (pop_eq_some hpop).within
    | plug slot place =>
      obtain ⟨slots, -, e⟩ := m.after_plug slot place
      rw [e]
      exact h
    | unplug slot =>
      obtain ⟨slots, -, e⟩ := m.after_unplug slot
      rw [e]
      exact h
    | observe observed => exact h
    | work bench => exact h

/-! ## One stack -/

/-- A stack that is worked on from both sides.

In every state the host can push a value if and only if the instruction `push` with an operand of this value can,
which is when the stack pointer is below the size of the stack, and then both do the same to the stack. In every state
the host can pop a value if and only if the instruction `pop` into a register that is there can, which is when the
stack pointer is between 1 and the size of the stack. Both take it back by one and yield the same value.

In whatever state, if there is room for some values, pushing them and then popping as many, each from either side,
succeeds and yields them in reverse order. The stack pointer is what it was, and so are the cells below it.

As long as no instruction that a host has executed has the stack pointer as its destination, the stack pointer does
not exceed the size of the stack. -/
theorem stack_shared :
    (∀ (m m₁ : Machine δ) (p : Program) (now : Nat) (i : Instruction) (value right : Float),
      i.operation = .push → (sources i).run m = .ok (value, right) m₁ →
      ((m.push value).isSome = true ↔ m.stackPointer.toNat < m.stack.size) ∧
      (m.comesThrough p now i = true ↔ m.stackPointer.toNat < m.stack.size) ∧
      ∀ m', m.push value = some m' →
        Pushed value m m' ∧ (m.attempt p now i).machine.stack = m'.stack ∧
          (m.attempt p now i).machine.stackPointer = m'.stackPointer) ∧
    (∀ (m m₁ : Machine δ) (p : Program) (now : Nat) (i : Instruction) (r : UInt32) (values : Float × Float),
      i.operation = .pop → i.destination = some (.register r) → r.toNat < m.registers.size →
      (sources i).run m = .ok values m₁ →
      (m.pop.isSome = true ↔ 1 ≤ m.stackPointer.toNat ∧ m.stackPointer.toNat ≤ m.stack.size) ∧
      (m.comesThrough p now i = true ↔ 1 ≤ m.stackPointer.toNat ∧ m.stackPointer.toNat ≤ m.stack.size) ∧
      ∀ value m', m.pop = some (value, m') →
        Popped value m m' ∧ (m.attempt p now i).machine.stack = m'.stack ∧
          (m.attempt p now i).machine.stackPointer = m'.stackPointer ∧
          (m.attempt p now i).machine.register? r.toNat = some value) ∧
    (∀ (m : Machine δ) (pushes : List (Party × Float)) (pops : List Party),
      m.stack.size < UInt32.size → m.stackPointer.toNat + pushes.length ≤ m.stack.size →
      pops.length = pushes.length → PushesAll pushes m →
      ∃ m₁, pushAll pushes m = some m₁ ∧
        (PopsAll pops m₁ → ∃ m₂, popAll pops m₁ = some ((pushes.map Prod.snd).reverse, m₂) ∧
          m₂.stackPointer = m.stackPointer ∧ ∀ x < m.stackPointer.toNat, m₂.stack[x]? = m.stack[x]?)) ∧
    ∀ (c : Capacities) (seed : UInt64) (bench : Bench δ) (moves : List (Move δ)),
      (∀ s ∈ (new c seed bench).tried moves, s.instruction.destination ≠ some .stackPointer) →
      ((new c seed bench).afterAll moves).stackPointer.toNat ≤ c.stack ∧
        ∀ s ∈ (new c seed bench).tried moves, s.machine.stackPointer.toNat ≤ c.stack := by
  refine ⟨?_, ?_, ?_, ?_⟩
  · intro m m₁ p now i value right hop hs
    obtain ⟨hcomes, hpushed⟩ := attempt_push hop hs p now
    refine ⟨isSome_push_iff, hcomes, fun m' hpush => ?_⟩
    have hhost := push_eq_some hpush
    have hprogram := hpushed hhost.room
    exact ⟨hhost, hprogram.stack.trans hhost.stack.symm, hprogram.stackPointer.trans hhost.stackPointer.symm⟩
  · intro m m₁ p now i r values hop hd hr hs
    obtain ⟨hcomes, hpopped⟩ := attempt_pop hop hd hr hs p now
    refine ⟨by rw [isSome_pop]; exact isSome_top?_iff, by rw [hcomes]; exact isSome_top?_iff, ?_⟩
    intro value m' hpop
    have hhost := pop_eq_some hpop
    obtain ⟨hprogram, hvalue⟩ := hpopped value hhost.top
    exact ⟨hhost, hprogram.stack.trans hhost.stack.symm, hprogram.stackPointer.trans hhost.stackPointer.symm, hvalue⟩
  · intro m pushes pops hsize hroom hlength hpushes
    obtain ⟨m₁, hpushAll, hwithin, hcontents⟩ := pushAll_spec hpushes hsize hroom
    refine ⟨m₁, hpushAll, fun hpops => ?_⟩
    have hvalues : (pushes.map Prod.snd).reverse.length = pops.length := by simp [hlength]
    obtain ⟨m₂, hpopAll, hwithin₂, hbelow⟩ := popAll_spec hpops hwithin hvalues hcontents
    have hm : m.Within := Nat.le_trans (Nat.le_add_right _ _) hroom
    have hpointer : m₂.stackPointer.toNat = m.stackPointer.toNat := by
      rw [← length_contents hwithin₂, hbelow, length_contents hm]
    refine ⟨m₂, hpopAll, UInt32.toNat_inj.mp hpointer, fun x hx => ?_⟩
    rw [getElem?_stack (hpointer.symm ▸ hx), hbelow, ← getElem?_stack hx]
  · intro c seed bench moves hmoves
    have hnew : (new c seed bench).Within := Nat.zero_le _
    obtain ⟨hlast, hall⟩ := within_keptWhile.tried hnew (fun _ _ _ => trivial) hmoves
    have hsized {m : Machine δ} (h : Reachable c seed bench m) : m.stack.size = c.stack :=
      ((sized_kept c).reachable (sized_new c seed bench) h).stack
    refine ⟨hsized (.between moves) ▸ hlast, fun s hs => ?_⟩
    exact hsized (.within moves hs) ▸ hall s hs

end Bounds

/-- The host pushes 5 and an instruction pushes 7, and the stack is full. Then an instruction takes the 7 into a
register, and the host takes the 5. A program that does this in the course of a run has left the stack pointer within
the stack. -/
theorem stack_shared_mixed :
    let seven := Number.Stored.ofFloat 7
    let pushing : Instruction := { operation := .push, left := some (.literal seven), line := 1 }
    let popping : Instruction := { operation := .pop, destination := some (.register 0), line := 2 }
    let p : Program := { target := .debug, instructions := #[pushing, pushing, popping, popping] }
    let m : Machine Device := new ⟨1, 2, 0, 0⟩ 7 {}
    let moves : List (Move Device) := [.load p {}, .push 5, .run ⟨0, 0, 2⟩]
    (∃ m₁, pushAll [(.host, 5), (.program p 0 pushing, seven.toFloat)] m = some m₁ ∧ m₁.push 1 = none ∧
      ∃ m₂, popAll [.program p 0 popping, .host] m₁ = some ([seven.toFloat, 5], m₂) ∧ m₂.stackPointer = 0) ∧
    (m.tried moves).map (·.instruction) = [pushing, pushing] ∧ (m.afterAll moves).stackPointer.toNat ≤ 2 := by
  intro seven pushing popping p m moves
  obtain ⟨-, -, hlifo, hbound⟩ := stack_shared (δ := Device)
  refine ⟨?_, ?_⟩
  · obtain ⟨m₁, hpushAll, hpops⟩ := hlifo m [(.host, 5), (.program p 0 pushing, seven.toFloat)]
      [.program p 0 popping, .host] (by decide) (by decide) rfl
      ⟨trivial, fun m' hm' => ⟨⟨rfl, 0, _, rfl⟩, fun _ _ => trivial⟩⟩
    obtain rfl := Option.some.inj hpushAll
    obtain ⟨m₂, hpopAll, hpointer, -⟩ := hpops
      ⟨⟨rfl, ⟨0, rfl, by decide⟩, (0, 0), _, rfl⟩, fun _ _ _ => ⟨trivial, fun _ _ _ => trivial⟩⟩
    exact ⟨_, rfl, rfl, m₂, hpopAll, hpointer⟩
  · have htried : (m.tried moves).map (·.instruction) = [pushing, pushing] := by decide +kernel
    refine ⟨htried, (hbound ⟨1, 2, 0, 0⟩ 7 {} moves fun s hs => ?_).1⟩
    have hmem := List.mem_map_of_mem (f := (·.instruction)) hs
    rw [htried] at hmem
    simp only [List.mem_cons, List.not_mem_nil, or_false, or_self] at hmem
    rw [hmem]
    intro h
    cases h

end VirtualProcessor.Machine
