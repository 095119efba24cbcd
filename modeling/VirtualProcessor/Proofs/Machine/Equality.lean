import VirtualProcessor.Device
import VirtualProcessor.Proofs.Machine.Link
import VirtualProcessor.Proofs.Number.Difference

/-!
# Equal or not

Two numbers are equal if their difference is small enough, and not equal if it is not. Each of the two is tested for
itself. Of the two tests one comes out right, unless the difference is not a number: then neither does
(`Comparison.holds_or_not_iff`). Both the operations that yield 1 or 0 and the branches go by these tests
(`yields_one_iff`, `takes_iff`).
-/

namespace VirtualProcessor

/-! ## The two tests -/

namespace Comparison

variable {x y : Float}

theorem holds_equal_iff : equal.holds x y = true ↔ (x - y).abs < equalityTolerance := decide_eq_true_iff

theorem holds_notEqual_iff : notEqual.holds x y = true ↔ equalityTolerance ≤ (x - y).abs := decide_eq_true_iff

/-- Numbers without a difference are neither equal nor not. -/
theorem not_holds_of_isNaN (h : (x - y).isNaN = true) :
    ¬ equal.holds x y = true ∧ ¬ notEqual.holds x y = true := by
  have habs : (x - y).abs.isNaN = true := (Number.isNaN_abs _).trans h
  rw [holds_equal_iff, holds_notEqual_iff]
  exact ⟨Number.not_lt_of_isNaN habs, Number.not_le_of_isNaN habs⟩

theorem holds_notEqual_iff_not (h : (x - y).isNaN = false) :
    notEqual.holds x y = true ↔ ¬ equal.holds x y = true := by
  have habs : (x - y).abs.isNaN = false := (Number.isNaN_abs _).trans h
  have htolerance : equalityTolerance.isNaN = false := by decide +kernel
  rw [holds_equal_iff, holds_notEqual_iff, Number.le_iff_not_lt htolerance habs]

/-- A number that is not infinite is equal to itself. -/
theorem holds_equal_self (hx : x.isNaN = false) (hfinite : x.isInf = false) : equal.holds x x = true := by
  rw [holds_equal_iff, Number.sub_self hx hfinite]
  decide +kernel

/-- Numbers are equal or not, unless they are the same infinity. -/
theorem holds_or_not_iff (hx : x.isNaN = false) (hy : y.isNaN = false) :
    (equal.holds x y = true ↔ ¬ notEqual.holds x y = true) ↔ ¬ (x.isInf = true ∧ x = y) := by
  rw [← Number.isNaN_sub_iff hx hy]
  cases h : (x - y).isNaN with
  | true =>
    obtain ⟨hequal, hnot⟩ := not_holds_of_isNaN h
    exact iff_of_false (fun hiff => hequal (hiff.mpr hnot)) (not_not_intro rfl)
  | false =>
    rw [holds_notEqual_iff_not h, not_not]
    exact iff_of_true Iff.rfl Bool.false_ne_true

end Comparison

/-! ## Results and branches -/

namespace Machine

variable {δ : Type} [Peripheral δ]

omit [Peripheral δ] in
theorem destination?_ofProgram (p : Program) {target : Float} {line : UInt32} (h : lineOf? target = some line) :
    destination? (.ofProgram p) target = p.instructions.toList.findIdx? (·.line == line) := by
  rw [destination?, h, Option.bind_some, LineIndex.getElem?_ofProgram]

/-- Carried out with the sources of `i`, an operation gives `value` to its destination, whatever that is. -/
def Yields (p : Program) (position now : Nat) (i : Instruction) (m : Machine δ) (op : Operation) (value : Float) :
    Prop :=
  ∀ destination, (execute p position now { i with operation := op, destination }).run m =
    (sources i >>= fun _ => write value destination >>= fun _ => pure Flow.next : Action δ Flow).run m

/-- Carried out with the operands of `i`, an operation goes on at another position. -/
def Takes (p : Program) (position now : Nat) (i : Instruction) (m : Machine δ) (op : Operation) : Prop :=
  ∃ next m', (execute p position now { i with operation := op }).run m = .ok (.jump next) m'

section

variable (p : Program) (position now : Nat) {i : Instruction} {m m₁ : Machine δ} {left right : Float}
  (hsources : (sources i).run m = .ok (left, right) m₁) (c : Comparison)

include hsources

theorem execute_compare (destination : Option Operand) :
    (execute p position now { i with operation := .binary (.compare c), destination }).run m =
      (write (Number.ofBool (c.holds left right)) destination >>= fun _ => pure Flow.next : Action δ Flow).run m₁ :=
  execute_of_sources (i := { i with operation := .binary (.compare c), destination }) hsources p position now

theorem execute_branch (links : Bool) :
    (execute p position now { i with operation := .branch c links }).run m =
      (jumpTo p position { i with operation := .branch c links } links (c.holds left right)).run m₁ :=
  execute_of_sources (i := { i with operation := .branch c links }) hsources p position now

theorem yields_one_iff : Yields p position now i m (.binary (.compare c)) 1 ↔ c.holds left right = true := by
  have hwrite (destination : Option Operand) :
      (sources i >>= fun _ => write 1 destination >>= fun _ => pure Flow.next : Action δ Flow).run m =
        (write 1 destination >>= fun _ => pure Flow.next : Action δ Flow).run m₁ := by
    rw [EStateM.run_bind, hsources]
  unfold Yields
  simp only [execute_compare p position now hsources, hwrite]
  cases c.holds left right with
  | true => exact iff_of_true (fun destination => rfl) rfl
  | false =>
    refine iff_of_false (fun h => ?_) Bool.false_ne_true
    -- The stack pointer as the destination tells 1 from 0.
    have hpointer := congrArg (fun r => (finalOf r).stackPointer) (h (some .stackPointer))
    change Number.toWord 0.0 = Number.toWord 1 at hpointer
    exact absurd hpointer (by decide +kernel)

theorem holds_of_takes {links : Bool} (h : Takes p position now i m (.branch c links)) : c.holds left right = true := by
  obtain ⟨next, m', hrun⟩ := h
  rw [execute_branch p position now hsources] at hrun
  obtain ⟨_, _, _, -, -, hflow⟩ := jumpTo_ok hrun
  cases hc : c.holds left right with
  | true => rfl
  | false =>
    rw [hc] at hflow
    cases hflow

/-- A branch whose destination is found is taken if it compares as it should. -/
theorem takes_iff {target : Float} {m₂ : Machine δ} {next : Nat}
    (htarget : (readDestination i.destination).run m₁ = .ok target m₂)
    (hnext : destination? m₂.lineIndex target = some next) (links : Bool) :
    Takes p position now i m (.branch c links) ↔ c.holds left right = true := by
  refine ⟨holds_of_takes p position now hsources c, fun hc => ?_⟩
  refine ⟨next, m₂.linked links (p.returnLine position i.line), ?_⟩
  rw [execute_branch p position now hsources, jumpTo_run, htarget, hc]
  simp only [hnext, if_true]

end

/-- Of two numbers an operation tells whether they are equal, and another one whether they are not. Just one of them
yields 1, unless the numbers are the same infinity, for which neither does. It is the same with the branches whose
destination is found, whether they link or not: a branch is taken just if the operation that compares likewise yields
1. -/
theorem equality_complementary (p : Program) (position now : Nat) {i : Instruction} {m m₁ : Machine δ}
    {left right : Float} (hsources : (sources i).run m = .ok (left, right) m₁) (hleft : left.isNaN = false)
    (hright : right.isNaN = false) :
    let yields (c : Comparison) := Yields p position now i m (.binary (.compare c)) 1
    let takes (c : Comparison) (links : Bool) := Takes p position now i m (.branch c links)
    ((yields .equal ↔ ¬ yields .notEqual) ↔ ¬ (left.isInf = true ∧ left = right)) ∧
    (left.isInf = true ∧ left = right → ¬ yields .equal ∧ ¬ yields .notEqual) ∧
    (left.isInf = false → left = right → yields .equal) ∧
    ∀ target m₂ next, (readDestination i.destination).run m₁ = .ok target m₂ →
      destination? m₂.lineIndex target = some next → ∀ links,
      ((takes .equal links ↔ ¬ takes .notEqual links) ↔ ¬ (left.isInf = true ∧ left = right)) ∧
        ∀ c, takes c links ↔ yields c := by
  intro yields takes
  have hyields (c : Comparison) : yields c ↔ c.holds left right = true := yields_one_iff p position now hsources c
  refine ⟨?_, fun h => ?_, fun hfinite h => ?_, fun target m₂ next htarget hnext links => ?_⟩
  · rw [hyields, hyields]
    exact Comparison.holds_or_not_iff hleft hright
  · rw [hyields, hyields]
    exact Comparison.not_holds_of_isNaN ((Number.isNaN_sub_iff hleft hright).mpr h)
  · rw [hyields, ← h]
    exact Comparison.holds_equal_self hleft hfinite
  · have htakes (c : Comparison) : takes c links ↔ c.holds left right = true :=
      takes_iff p position now hsources c htarget hnext links
    refine ⟨?_, fun c => (htakes c).trans (hyields c).symm⟩
    rw [htakes, htakes]
    exact Comparison.holds_or_not_iff hleft hright

/-- A branch to its own line, on a machine with an infinity in its register, that compares it with the opposite one. -/
theorem equality_complementary_opposite :
    let number (x : Float) : Option Operand := some (.literal (Number.Stored.ofFloat x))
    let i : Instruction :=
      { operation := .branch .notEqual true, destination := number 1, left := some (.register 0),
        right := number (-1 / 0), line := 1 }
    let p : Program := { target := .debug, instructions := #[i] }
    let m : Machine Device := { new ⟨1, 0, 0, 0⟩ 7 {} with registers := #[1 / 0], lineIndex := .ofProgram p }
    let yields (c : Comparison) := Yields p 0 0 i m (.binary (.compare c)) 1
    let takes (c : Comparison) := Takes p 0 0 i m (.branch c true)
    ((sources i).run m = .ok (1 / 0, -1 / 0) m ∧ (1 / 0 : Float).isNaN = false ∧ (-1 / 0 : Float).isNaN = false) ∧
      ((readDestination i.destination).run m = .ok 1 m ∧ destination? m.lineIndex 1 = some 0) ∧
      (yields .equal ↔ ¬ yields .notEqual) ∧ (takes .equal ↔ ¬ takes .notEqual) ∧ (takes .equal ↔ yields .equal) := by
  intro number i p m yields takes
  have hread : (sources i).run m = .ok (1 / 0, -1 / 0) m := by
    show EStateM.Result.ok ((1 / 0 : Float), (Number.Stored.ofFloat (-1 / 0)).toFloat) m = _
    rw [Number.toFloat_ofFloat]
  have htarget : (readDestination i.destination).run m = .ok 1 m := by
    show EStateM.Result.ok (Number.Stored.ofFloat 1).toFloat m = _
    rw [Number.toFloat_ofFloat]
  have hnext : destination? m.lineIndex 1 = some 0 :=
    destination?_ofProgram p (show lineOf? 1 = some 1 by decide +kernel)
  have hleft : (1 / 0 : Float).isNaN = false := by decide +kernel
  have hright : (-1 / 0 : Float).isNaN = false := by decide +kernel
  have hother : ¬ ((1 / 0 : Float).isInf = true ∧ (1 / 0 : Float) = -1 / 0) := by decide +kernel
  obtain ⟨hyields, -, -, hbranches⟩ := equality_complementary p 0 0 hread hleft hright
  obtain ⟨htakes, hsame⟩ := hbranches 1 m 0 htarget hnext true
  exact ⟨⟨hread, hleft, hright⟩, ⟨htarget, hnext⟩, hyields.mpr hother, htakes.mpr hother, hsame .equal⟩

/-- An infinity, compared with itself: neither operation yields 1, and neither branch is taken, though the line that
they name is there. -/
theorem infinity_neither_equal_nor_not :
    let number (x : Float) : Option Operand := some (.literal (Number.Stored.ofFloat x))
    let i : Instruction :=
      { operation := .branch .equal false, destination := number 1, left := some (.register 0),
        right := some (.register 0), line := 1 }
    let p : Program := { target := .debug, instructions := #[i] }
    let m : Machine Device := { new ⟨1, 0, 0, 0⟩ 7 {} with registers := #[1 / 0], lineIndex := .ofProgram p }
    (sources i).run m = .ok (1 / 0, 1 / 0) m ∧ (1 / 0 : Float).isNaN = false ∧ destination? m.lineIndex 1 = some 0 ∧
      ∀ c ∈ [Comparison.equal, .notEqual], ¬ Yields p 0 0 i m (.binary (.compare c)) 1 ∧
        ∀ links, ¬ Takes p 0 0 i m (.branch c links) := by
  intro number i p m
  have hread : (sources i).run m = .ok (1 / 0, 1 / 0) m := rfl
  have hnext : destination? m.lineIndex 1 = some 0 :=
    destination?_ofProgram p (show lineOf? 1 = some 1 by decide +kernel)
  have hneither : ∀ c ∈ [Comparison.equal, .notEqual], ¬ c.holds (1 / 0) (1 / 0) = true := by decide +kernel
  refine ⟨hread, by decide +kernel, hnext, fun c hc => ⟨fun h => ?_, fun links h => ?_⟩⟩
  · exact hneither c hc ((yields_one_iff p 0 0 hread c).mp h)
  · exact hneither c hc (holds_of_takes p 0 0 hread c h)

end Machine

end VirtualProcessor
