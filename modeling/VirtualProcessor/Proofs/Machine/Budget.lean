import VirtualProcessor.Device
import VirtualProcessor.Proofs.Machine.Run

/-!
# Splitting a budget

A run that has used up its budget can be taken up again: a run of `a` instructions and then one of `b` come
to what a run of `a + b` comes to. A run that ends in any other way would have ended so with a larger budget
(`run_add`). Both rest on what the loop does while no instruction ends it: `GoesOn` describes `a` such
instructions, `GoesOn.loop_add` takes them off the budget, and `goesOn_or_ends` says that there are `a` of
them unless the loop ends before.
-/

namespace VirtualProcessor.Machine

variable {δ : Type} [Peripheral δ]

/-- From `m`, `a` instructions in a row are completed, none of which ends the run, and lead to `n`; `ns` and
`ss` are what is reported and shown of them. -/
inductive GoesOn (p : Program) (now : Nat) :
    (a : Nat) → (m n : Machine δ) → (ns : List Notice) → (ss : List Snapshot) → Prop
  | zero (m : Machine δ) : GoesOn p now 0 m m [] []
  | succ {a : Nat} {m n : Machine δ} {ns : List Notice} {ss : List Snapshot} {i : Instruction}
      (hi : p.instructions[m.position]? = some i) (he : (m.attempt p now i).ending = none)
      (h : GoesOn p now a (m.attempt p now i).machine n ns ss) :
    GoesOn p now (a + 1) m n ((m.attempt p now i).notices ++ ns) ((m.attempt p now i).snapshots ++ ss)

namespace GoesOn

variable {p : Program} {now a : Nat} {m n : Machine δ} {ns : List Notice} {ss : List Snapshot}

/-- The instructions come off the budget of the loop. -/
theorem loop_add (h : GoesOn p now a m n ns ss) (b : Nat) (ns₀ : List Notice) (ss₀ : List Snapshot) :
    loop p now (a + b) m ns₀ ss₀ = loop p now b n (ns.reverse ++ ns₀) (ss.reverse ++ ss₀) := by
  induction h generalizing ns₀ ss₀ with
  | zero m => rw [Nat.zero_add]; rfl
  | @succ a m n ns ss i hi he h ih =>
    rw [Nat.succ_add, loop]
    simp only [hi, he]
    rw [ih, List.reverse_append, List.reverse_append, List.append_assoc, List.append_assoc]

theorem attempts (h : GoesOn p now a m n ns ss) : attemptsIn ns = a := by
  induction h with
  | zero m => rfl
  | @succ a m n ns ss i hi he h ih =>
    rw [attemptsIn_append, (attempt_attempted m p now i).attemptsIn_notices, ih, Nat.add_comm]

/-- The machine has counted the instructions, keeps its interlude and has not failed. -/
theorem kept (h : GoesOn p now a m n ns ss) :
    n.interlude = m.interlude ∧ n.failure = m.failure ∧ n.program = m.program ∧
      n.frame = m.frame + UInt32.ofNat a := by
  induction h with
  | zero m => exact ⟨rfl, rfl, rfl, (UInt32.add_zero _).symm⟩
  | @succ a m n ns ss i hi he h ih =>
    have ha := attempt_attempted m p now i
    obtain ⟨hl, hf, hn, -⟩ := ha.continues he
    obtain ⟨ihl, ihf, ihp, ihn⟩ := ih
    refine ⟨ihl.trans hl, ihf.trans hf, ihp.trans ha.program, ?_⟩
    rw [ihn, hn, UInt32.add_assoc, UInt32.ofNat_add, UInt32.add_comm (UInt32.ofNat a)]
    rfl

theorem length_snapshots (h : GoesOn p now a m n ns ss) :
    ss.length = if m.observed then a else 0 := by
  induction h with
  | zero m => rw [ite_self]; rfl
  | @succ a m n ns ss i hi he h ih =>
    have ha := attempt_attempted m p now i
    obtain ⟨-, -, -, ho⟩ := ha.continues he
    rw [List.length_append, ha.length_snapshots he, ih, ho]
    split
    · exact Nat.add_comm 1 a
    · rfl

end GoesOn

/-- Unless `a` instructions go on, the loop ends before its budget is used up, with whatever budget from `a`
on. -/
theorem goesOn_or_ends (p : Program) (now a : Nat) (m : Machine δ) :
    (∃ n ns ss, GoesOn p now a m n ns ss) ∨
      (∀ ns ss, (loop p now a m ns ss).ending ≠ .outcome .budgetExhausted) ∧
        ∀ b ns ss, loop p now (a + b) m ns ss = loop p now a m ns ss := by
  induction a generalizing m with
  | zero => exact .inl ⟨m, [], [], .zero m⟩
  | succ a ih =>
    cases hi : p.instructions[m.position]? with
    | none =>
      refine .inr ⟨fun ns ss => ?_, fun b ns ss => ?_⟩
      · simp only [loop, hi]
        intro h
        cases h
      · rw [Nat.succ_add, loop, loop]
        simp only [hi]
    | some i =>
      cases he : (m.attempt p now i).ending with
      | some ending =>
        refine .inr ⟨fun ns ss => ?_, fun b ns ss => ?_⟩
        · simp only [loop, hi, he]
          rintro rfl
          exact ((attempt_attempted m p now i).stops he).1 rfl
        · rw [Nat.succ_add, loop, loop]
          simp only [hi, he]
      | none =>
        obtain ⟨n, ns, ss, h⟩ | ⟨hb, hmore⟩ := ih (m.attempt p now i).machine
        · exact .inl ⟨n, _, _, .succ hi he h⟩
        · refine .inr ⟨fun ns ss => ?_, fun b ns ss => ?_⟩
          · simp only [loop, hi, he]
            exact hb _ _
          · rw [Nat.succ_add, loop, loop]
            simp only [hi, he]
            exact hmore b _ _

/-- A loop at the end of the program finishes, whatever its budget. -/
theorem loop_atEnd {p : Program} {m : Machine δ} (h : p.size ≤ m.position) (now b : Nat)
    (ns : List Notice) (ss : List Snapshot) :
    loop p now b m ns ss = ⟨m.settle .finished, .outcome .finished, ns.reverse, ss.reverse⟩ := by
  cases b with
  | zero => simp only [loop, Nat.not_lt.mpr h, ↓reduceIte]
  | succ b =>
    have hi : p.instructions[m.position]? = none := Array.getElem?_eq_none h
    simp only [loop, hi]

/-- The interludes of two runs that started out with other outcomes noted. -/
def SameButOutcome (h h' : Interlude) : Prop :=
  h.wakeAt = h'.wakeAt ∧ h.breakpointReached = h'.breakpointReached

theorem keptAsleep_sameButOutcome (now : Nat) : KeptAsleep now now SameButOutcome :=
  fun _ _ _ h => ⟨rfl, h.2⟩

theorem keptSettled_sameButOutcome : KeptSettled SameButOutcome := fun _ _ _ h => ⟨h.1, rfl⟩

omit [Peripheral δ] in
theorem AlikeUpTo.eq_of_sameButOutcome {m m' : Machine δ} (h : AlikeUpTo SameButOutcome m m') :
    m = { m' with lastOutcome := m.lastOutcome } := by
  obtain ⟨n, ⟨w, b, o⟩, ⟨w', b', o'⟩, ⟨hw, hb⟩, rfl, rfl⟩ := h
  obtain rfl : w = w' := hw
  obtain rfl : b = b' := hb
  rfl

/-- What `a` instructions that go on and end the budget mean for the run they are part of, and for the run
that takes it up. -/
theorem run_usedUp {p : Program} {m n : Machine δ} {now a : Nat} {ns : List Notice} {ss : List Snapshot}
    (hp : m.program = some p) (hf : m.failure = none) (hpos : ¬ p.size ≤ m.position)
    (ha : m.isAsleep now = false) (h : GoesOn p now a m.awakened n ns ss) (hn : n.position < p.size) :
    m.run now a = ⟨n.settle .budgetExhausted, .outcome .budgetExhausted, ns, ss⟩ ∧
      ∀ b, (n.settle .budgetExhausted).run now b =
        loop p now b (n.settle .budgetExhausted).awakened [] [] := by
  obtain ⟨hl, hf', hp', -⟩ := h.kept
  refine ⟨?_, fun b => ?_⟩
  · rw [run, runDuring_awake hp hf hpos ha, ← Nat.add_zero a, h.loop_add, loop]
    simp only [hn, ↓reduceIte, List.append_nil, List.reverse_reverse]
  · have hw : n.wakeAt = none := congrArg Interlude.wakeAt hl
    have ha' : (n.settle .budgetExhausted).isAsleep now = false := by
      simp only [isAsleep, settle, hw]
    exact runDuring_awake (m := n.settle .budgetExhausted) (hp'.trans hp) (hf'.trans hf)
      (Nat.not_le.mpr hn) ha' now b

/-- A run that the budget does not end is the same with a larger budget. -/
theorem run_ended {p : Program} {m : Machine δ} {now a : Nat} (hp : m.program = some p)
    (hf : m.failure = none) (hpos : ¬ p.size ≤ m.position) (ha : m.isAsleep now = false)
    (h : ∀ b ns ss, loop p now (a + b) m.awakened ns ss = loop p now a m.awakened ns ss) (b : Nat) :
    m.run now (a + b) = m.run now a := by
  rw [run, run, runDuring_awake hp hf hpos ha, runDuring_awake hp hf hpos ha, h]

/-- So is a run that does not look at its budget. -/
theorem run_ended_of_const {m : Machine δ} {now : Nat} {r : Run δ}
    (h : ∀ budget, m.runDuring now now budget = r) (hr : r.ending ≠ .outcome .budgetExhausted) (a : Nat) :
    (m.run now a).ending ≠ .outcome .budgetExhausted ∧ ∀ b, m.run now (a + b) = m.run now a := by
  refine ⟨?_, fun b => ?_⟩
  · rw [run, h]
    exact hr
  · rw [run, run, h, h]

/-- How a run ends that is given a budget: it is used up by instructions that go on, or a larger budget
changes nothing. -/
theorem run_usedUp_or_ended (m : Machine δ) (now a : Nat) :
    (∃ p n ns ss, m.program = some p ∧ m.failure = none ∧ ¬ p.size ≤ m.position ∧
      m.isAsleep now = false ∧ GoesOn p now a m.awakened n ns ss ∧ n.position < p.size) ∨
    (m.run now a).ending ≠ .outcome .budgetExhausted ∧ ∀ b, m.run now (a + b) = m.run now a := by
  cases hp : m.program with
  | none => exact .inr (run_ended_of_const (runDuring_unloaded hp now now) nofun a)
  | some p =>
    obtain ⟨r, hidle, hr⟩ | ⟨hf, he, ha⟩ := idle_or_awake hp now now
    · exact .inr (run_ended_of_const hr hidle.ending a)
    obtain ⟨n, ns, ss, h⟩ | ⟨hb, hmore⟩ := goesOn_or_ends p now a m.awakened
    · by_cases hn : n.position < p.size
      · exact .inl ⟨p, n, ns, ss, rfl, hf, he, ha, h, hn⟩
      -- The instructions lead to the end of the program, where any budget finishes.
      have hrun : ∀ b, m.run now (a + b) = ⟨n.settle .finished, .outcome .finished, ns, ss⟩ := by
        intro b
        rw [run, runDuring_awake hp hf he ha, h.loop_add, loop_atEnd (Nat.not_lt.mp hn)]
        simp only [List.append_nil, List.reverse_reverse]
      refine .inr ⟨?_, fun b => (hrun b).trans (hrun 0).symm⟩
      rw [show m.run now a = _ from hrun 0]
      nofun
    · refine .inr ⟨?_, run_ended hp hf he ha hmore⟩
      rw [run, runDuring_awake hp hf he ha]
      exact hb [] []

/-- A run attempts no more instructions than its budget allows. -/
theorem attemptsIn_run_le (m : Machine δ) (now a : Nat) : attemptsIn (m.run now a).notices ≤ a := by
  unfold run
  cases hp : m.program with
  | none => rw [runDuring_unloaded hp]; exact Nat.zero_le a
  | some p =>
    obtain ⟨r, hidle, hr⟩ | ⟨hf, he, ha⟩ := idle_or_awake hp now now
    · rw [hr, hidle.notices]
      exact Nat.zero_le a
    · rw [runDuring_awake hp hf he ha]
      exact Nat.le_trans (attemptsIn_loop_le p now a m.awakened [] []) (Nat.le_of_eq (Nat.zero_add a))

/-- Splitting a budget under one reading of the clock. A run attempts at most its budget. If it uses the
budget up, it has completed just as many instructions, and a second run ends, reports, shows and leaves
behind what one run with both budgets does, but that after an error or a breakdown another outcome may stand
noted. If it ends in another way, it is the run with both budgets. -/
theorem run_add (m : Machine δ) (now a b : Nat) :
    let first := m.run now a
    let second := first.machine.run now b
    let whole := m.run now (a + b)
    attemptsIn first.notices ≤ a ∧
      (first.ending = .outcome .budgetExhausted →
        attemptsIn first.notices = a ∧ first.machine.frame = m.frame + UInt32.ofNat a ∧
          first.snapshots.length = (if m.observed then a else 0) ∧
          second.ending = whole.ending ∧ first.snapshots ++ second.snapshots = whole.snapshots ∧
          first.notices ++ second.notices = whole.notices ∧
          second.machine = { whole.machine with lastOutcome := second.machine.lastOutcome } ∧
          ∀ o, whole.ending = .outcome o → second.machine = whole.machine) ∧
      (first.ending ≠ .outcome .budgetExhausted → whole = first) := by
  dsimp only
  refine ⟨attemptsIn_run_le m now a, ?_⟩
  obtain ⟨p, n, ns, ss, hp, hf, he, ha, h, hn⟩ | ⟨hb, hmore⟩ := run_usedUp_or_ended m now a
  · obtain ⟨hfirst, hsecond⟩ := run_usedUp hp hf he ha h hn
    obtain ⟨hl, -, -, hframe⟩ := h.kept
    have hwhole : m.run now (a + b) =
        ⟨(loop p now b n [] []).machine, (loop p now b n [] []).ending,
          ns ++ (loop p now b n [] []).notices, ss ++ (loop p now b n [] []).snapshots⟩ := by
      rw [run, runDuring_awake hp hf he ha, h.loop_add, loop_eq]
      simp only [List.append_nil, List.reverse_reverse]
    have hm : AlikeUpTo SameButOutcome (n.settle .budgetExhausted).awakened n := by
      refine ⟨n, (n.settle .budgetExhausted).awakened.interlude, n.interlude, ?_, rfl, rfl⟩
      rw [hl]
      exact ⟨rfl, rfl⟩
    have hs := loop_parallel (keptAsleep_sameButOutcome now) keptSettled_sameButOutcome p b hm [] []
    refine ⟨fun _ => ?_, fun hne => absurd (by rw [hfirst]) hne⟩
    rw [hfirst, hwhole]
    simp only [hsecond]
    refine ⟨h.attempts, hframe, h.length_snapshots, hs.ending, ?_, ?_, ?_, ?_⟩
    · rw [hs.snapshots]
    · rw [hs.notices]
    · exact hs.machine.eq_of_sameButOutcome
    · intro o ho
      have ho₁ := loop_lastOutcome ho
      have ho₂ := loop_lastOutcome (hs.ending.trans ho)
      rw [hs.machine.eq_of_sameButOutcome, ho₂, ← ho₁]
  · exact ⟨fun hbe => absurd hbe hb, fun _ => hmore b⟩

/-- A program of two idle instructions before its end, on a machine that is watched. -/
def idlingMachine : Machine Device :=
  ({ new ⟨1, 1, 1, 1⟩ 7 {} with observed := true }.load
    { target := .debug
      instructions := #[{ operation := .nop, line := 1 }, { operation := .nop, line := 2 },
        { operation := .ret, line := 3 }] } {}).1

/-- One instruction and then two more come to the same as three; with three the program ends, so that four
come to the same too. -/
theorem run_add_idling :
    (idlingMachine.run 0 1).ending = .outcome .budgetExhausted ∧
      ((idlingMachine.run 0 1).machine.run 0 2).machine = (idlingMachine.run 0 3).machine ∧
      idlingMachine.run 0 4 = idlingMachine.run 0 3 := by
  have h₁ : (idlingMachine.run 0 1).ending = .outcome .budgetExhausted := by decide +kernel
  have h₃ : (idlingMachine.run 0 3).ending = .outcome .finished := by decide +kernel
  obtain ⟨-, -, -, -, -, -, -, h⟩ := (run_add idlingMachine 0 1 2).2.1 h₁
  exact ⟨h₁, h .finished h₃, (run_add idlingMachine 0 3 1).2.2 (by rw [h₃]; nofun)⟩

end VirtualProcessor.Machine
