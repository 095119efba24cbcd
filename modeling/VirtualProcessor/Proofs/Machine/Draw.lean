import VirtualProcessor.Device
import VirtualProcessor.Proofs.Machine.Trouble
import VirtualProcessor.Proofs.Number.Truncation

/-!
# Random integers stay between their bounds

A random integer is chosen by a word of sixty-four bits, and by a second one where the first leaves the choice open.
`chosen` is the choice in the arithmetic of such words: the size of the range and the sum of the lower bound and the
offset wrap around, and the product of the first word with the size is taken in two halves. The upper half is the
offset, or one less than it if the lower half carries. It can carry only if it is above the size taken from 2^64, and
then the upper half is not the greatest one possible (`succ_lt_of_lt_mod`). So the offset is below the size
(`offset_lt`), nothing overflows, and the choice is between the bounds (`chosen_between`) whatever the words are. It is
what the generator draws (`between_eq`).
-/

namespace VirtualProcessor.Random

/-! ## Products of words -/

/-- The upper half of the product of two words. The lower half is their product as words. -/
def highHalf (x n : UInt64) : UInt64 := UInt64.ofNat (x.toNat * n.toNat / UInt64.size)

theorem toNat_highHalf (x n : UInt64) : (highHalf x n).toNat = x.toNat * n.toNat / UInt64.size := by
  refine UInt64.toNat_ofNat_of_lt' ?_
  rw [Nat.div_lt_iff_lt_mul (by decide)]
  exact Nat.mul_lt_mul'' x.toNat_lt n.toNat_lt

/-- The upper half of a product is not the greatest one if the lower half is so great that it may carry. -/
theorem succ_lt_of_lt_mod {x n : Nat} (hx : x < UInt64.size) (hlow : UInt64.size - n < x * n % UInt64.size) :
    x * n / UInt64.size + 1 < n := by
  have hsplit := Nat.div_add_mod (x * n) UInt64.size
  have hbound : x * n + n ≤ UInt64.size * n := by
    rw [← Nat.succ_mul]
    exact Nat.mul_le_mul_right n hx
  have hlt : UInt64.size * (x * n / UInt64.size + 1) < UInt64.size * n := by
    rw [Nat.mul_succ]
    omega
  exact Nat.lt_of_mul_lt_mul_left hlt

/-- A sum of words is less than the first of them just if it has wrapped around. -/
theorem add_lt_iff (a b : UInt64) : a + b < a ↔ UInt64.size ≤ a.toNat + b.toNat := by
  have ha := a.toNat_lt
  have hb := b.toNat_lt
  have hsize : UInt64.size = 2 ^ 64 := rfl
  rw [UInt64.lt_iff_toNat_lt, UInt64.toNat_add]
  omega

/-- The number below `n` that two words choose. The second one counts only if the lower half of the product with the
first one may carry. -/
def offset (n x y : UInt64) : UInt64 :=
  if -n < x * n ∧ x * n + highHalf y n < x * n then highHalf x n + 1 else highHalf x n

section

variable {n : UInt64} (hn : n ≠ 0) (x y : UInt64)

include hn

theorem toNat_pos : 0 < n.toNat := Nat.pos_of_ne_zero fun h => hn (UInt64.toNat_inj.mp h)

theorem neg_lt_iff : -n < x * n ↔ UInt64.size - n.toNat < x.toNat * n.toNat % UInt64.size := by
  have hpos := toNat_pos hn
  rw [UInt64.lt_iff_toNat_lt, UInt64.toNat_neg, Nat.mod_eq_of_lt (Nat.sub_lt (by decide) hpos), UInt64.toNat_mul]

/-- The words choose by the halves of the products. -/
theorem toNat_offset :
    (offset n x y).toNat =
      if UInt64.size - n.toNat < x.toNat * n.toNat % UInt64.size ∧
          UInt64.size ≤ x.toNat * n.toNat % UInt64.size + y.toNat * n.toNat / UInt64.size then
        x.toNat * n.toNat / UInt64.size + 1
      else x.toNat * n.toNat / UInt64.size := by
  have hcarry := add_lt_iff (x * n) (highHalf y n)
  rw [toNat_highHalf, UInt64.toNat_mul] at hcarry
  simp only [offset, neg_lt_iff hn, hcarry]
  split
  · rename_i h
    have hlt := (succ_lt_of_lt_mod x.toNat_lt h.1).trans n.toNat_lt
    rw [UInt64.toNat_add, toNat_highHalf]
    exact Nat.mod_eq_of_lt hlt
  · exact toNat_highHalf x n

theorem offset_lt : (offset n x y).toNat < n.toNat := by
  rw [toNat_offset hn]
  split
  · rename_i h
    exact succ_lt_of_lt_mod x.toNat_lt h.1
  · rw [Nat.div_lt_iff_lt_mul (by decide), Nat.mul_comm]
    exact Nat.mul_lt_mul_of_pos_left x.toNat_lt (toNat_pos hn)

end

/-! ## Integers between bounds -/

/-- How many integers there are from one bound to the other; 0 if they are as many as there are words. -/
def span (low high : Int64) : UInt64 := (high - low + 1).toUInt64

/-- The integer between two bounds that two words choose. If every integer is between them, it is the first word. -/
def chosen (low high : Int64) (x y : UInt64) : Int64 :=
  if span low high = 0 then x.toInt64 else low + (offset (span low high) x y).toInt64

theorem toInt_toInt64 (x : UInt64) : x.toInt64.toInt = Int.bmod x.toNat UInt64.size := BitVec.toInt_eq_toNat_bmod _

theorem toNat_toUInt64 (w : Int64) : (w.toUInt64.toNat : Int) = w.toInt % UInt64.size := by
  have h := toInt_toInt64 w.toUInt64
  rw [Int64.toInt64_toUInt64] at h
  rw [h, Int.bmod_emod, Int.emod_eq_of_lt (Int.natCast_nonneg _) (Int.ofNat_lt.mpr w.toUInt64.toNat_lt)]

section

variable {low high : Int64}

theorem toNat_span (low high : Int64) :
    ((span low high).toNat : Int) = (high.toInt - low.toInt + 1) % UInt64.size := by
  have hone : (1 : Int64).toInt = 1 := rfl
  rw [span, toNat_toUInt64, Int64.toInt_add, Int64.toInt_sub, hone, Int.bmod_add_bmod]
  exact Int.bmod_emod

variable (h : low ≤ high)

include h

/-- The integers between two bounds that are in order are at least one, and at most as many as there are words. -/
theorem count_bounds : 1 ≤ high.toInt - low.toInt + 1 ∧ high.toInt - low.toInt + 1 ≤ UInt64.size := by
  have hle := Int64.le_iff_toInt_le.mp h
  have hlow := low.le_toInt
  have hhigh := high.toInt_lt
  have hsize : (UInt64.size : Int) = 2 ^ 64 := rfl
  omega

/-- If the size of the range wraps around to 0, there are as many integers between the bounds as there are words. -/
theorem count_of_span_eq_zero (hn : span low high = 0) : high.toInt - low.toInt + 1 = UInt64.size := by
  obtain ⟨hone, hall⟩ := count_bounds h
  have hspan := toNat_span low high
  rw [hn] at hspan
  exact le_antisymm hall (Int.le_of_dvd (by omega) (Int.dvd_of_emod_eq_zero hspan.symm))

theorem toNat_span_of_ne (hn : span low high ≠ 0) : ((span low high).toNat : Int) = high.toInt - low.toInt + 1 := by
  obtain ⟨hone, hall⟩ := count_bounds h
  have hspan := toNat_span low high
  have hpos := toNat_pos hn
  rw [hspan]
  refine Int.emod_eq_of_lt (by omega) (lt_of_le_of_ne hall fun hsize => ?_)
  rw [hsize, Int.emod_self] at hspan
  omega

/-- The sum of the lower bound and the offset does not overflow. -/
theorem toInt_chosen (hn : span low high ≠ 0) (x y : UInt64) :
    (chosen low high x y).toInt = low.toInt + (offset (span low high) x y).toNat := by
  have hspan := toNat_span_of_ne h hn
  have hoffset := offset_lt hn x y
  have hlow := low.le_toInt
  have hhigh := high.toInt_lt
  rw [chosen, if_neg hn, Int64.toInt_add, toInt_toInt64]
  have hsize : (UInt64.size : Int) = 2 ^ 64 := rfl
  refine Int.add_bmod_bmod.trans (Int.bmod_eq_of_le ?_ ?_)
  · omega
  · omega

/-- Whatever the words are, they choose an integer between the bounds. -/
theorem chosen_between (x y : UInt64) : low ≤ chosen low high x y ∧ chosen low high x y ≤ high := by
  rw [Int64.le_iff_toInt_le, Int64.le_iff_toInt_le]
  by_cases hn : span low high = 0
  · have hcount := count_of_span_eq_zero h hn
    have hsize : (UInt64.size : Int) = 2 ^ 64 := rfl
    have hlow := low.le_toInt
    have hhigh := high.toInt_lt
    have hfirst := (chosen low high x y).le_toInt
    have hlast := (chosen low high x y).toInt_lt
    omega
  · have hspan := toNat_span_of_ne h hn
    have hoffset := offset_lt hn x y
    rw [toInt_chosen h hn]
    omega

end

/-! ## The generator -/

namespace Generator

/-- The next word of a generator. -/
def nextWord (g : Generator) : UInt64 := UInt64.ofNat g.next.1

theorem toNat_nextWord (g : Generator) : g.nextWord.toNat = g.next.1 := by
  refine UInt64.toNat_ofNat_of_lt' ?_
  have hlow := (g.word g.drawn).toNat_lt
  have hhigh := (g.word (g.drawn + 1)).toNat_lt
  show (g.word g.drawn).toNat + UInt32.size * (g.word (g.drawn + 1)).toNat < UInt64.size
  simp only [UInt32.size, UInt64.size]
  omega

/-- The generator behind a draw that is made with the first word, and with a second one if that may carry. -/
def behind (g : Generator) (n : UInt64) : Generator :=
  if -n < g.nextWord * n then g.next.2.next.2 else g.next.2

theorem below_def (g : Generator) (n : Nat) :
    g.below n =
      if UInt64.size - n < g.next.1 * n % UInt64.size then
        (if UInt64.size ≤ g.next.1 * n % UInt64.size + g.next.2.next.1 * n / UInt64.size then
          g.next.1 * n / UInt64.size + 1 else g.next.1 * n / UInt64.size, g.next.2.next.2)
      else (g.next.1 * n / UInt64.size, g.next.2) := rfl

theorem below_eq (g : Generator) {n : UInt64} (hn : n ≠ 0) :
    g.below n.toNat = ((offset n g.nextWord g.next.2.nextWord).toNat, g.behind n) := by
  rw [below_def, toNat_offset hn, behind]
  simp only [neg_lt_iff hn, toNat_nextWord]
  by_cases hopen : UInt64.size - n.toNat < g.next.1 * n.toNat % UInt64.size
  · simp only [hopen, true_and, if_true]
  · simp only [hopen, false_and, if_false]

/-- What the generator draws is what its next two words choose. -/
theorem between_eq (g : Generator) {low high : Int64} (h : low ≤ high) :
    g.between low.toInt high.toInt =
      ((chosen low high g.nextWord g.next.2.nextWord).toInt, g.behind (span low high)) := by
  unfold between
  by_cases hn : span low high = 0
  · have hcount := count_of_span_eq_zero h hn
    have hzero : g.behind 0 = g.next.2 := if_neg (by simp)
    simp only [hcount, Int.toNat_natCast, le_refl, if_true, chosen, hn, toInt_toInt64, toNat_nextWord, hzero]
  · have hspan := toNat_span_of_ne h hn
    have hcount : (high.toInt - low.toInt + 1).toNat = (span low high).toNat := by omega
    have hlt : ¬ UInt64.size ≤ (span low high).toNat := Nat.not_le.mpr (span low high).toNat_lt
    simp only [hcount, hlt, if_false, below_eq g hn, toInt_chosen h hn]

end Generator

end VirtualProcessor.Random

namespace VirtualProcessor.Machine

open VirtualProcessor.Random

variable {δ : Type}

theorem drawInteger_run {left right : Float} (h : left ≤ right) (m : Machine δ) :
    let low := Number.toSignedWide left
    let high := Number.toSignedWide right
    (drawInteger left right : Action δ Float).run m =
      .ok (Float.ofInt (chosen low high m.random.nextWord m.random.next.2.nextWord).toInt)
        { m with random := m.random.behind (span low high) } := by
  intro low high
  have hgt : ¬ left > right := Number.not_lt_of_le h
  have hle : low.toInt ≤ high.toInt := Number.toSignedWide_mono h
  have hdraw := m.random.between_eq (Int64.le_iff_toInt_le.mpr hle)
  rw [drawInteger, if_neg hgt, if_neg (Int.not_lt.mpr hle), run_get_bind, hdraw]
  rfl

section Work

variable [Peripheral δ]

/-- Between bounds that are in order a random integer is drawn, whatever the state of the generator is: the one that the
next two words choose. Any two words choose an integer between the bounds, and what is written is the number of it. -/
theorem execute_randomInteger_between (p : Program) (position now : Nat) {i : Instruction}
    (hop : i.operation = .randomInteger) {m m₁ : Machine δ} {left right : Float}
    (hsources : (sources i).run m = .ok (left, right) m₁) (h : left ≤ right) :
    let low := Number.toSignedWide left
    let high := Number.toSignedWide right
    (∀ x y : UInt64, low ≤ chosen low high x y ∧ chosen low high x y ≤ high) ∧
    (execute p position now i).run m =
      (do
        write (Float.ofInt (chosen low high m₁.random.nextWord m₁.random.next.2.nextWord).toInt) i.destination
        pure Flow.next : Action δ Flow).run { m₁ with random := m₁.random.behind (span low high) } := by
  intro low high
  have hle : low ≤ high := Int64.le_iff_toInt_le.mpr (Number.toSignedWide_mono h)
  refine ⟨chosen_between hle, ?_⟩
  rw [execute_of_sources hsources]
  simp only [perform, hop, compute]
  rw [EStateM.run_bind, drawInteger_run h]

end Work

/-- A machine with one register throws a die. -/
theorem execute_randomInteger_between_die :
    let number (x : Float) : Option Operand := some (.literal (Number.Stored.ofFloat x))
    let throwing : Instruction :=
      { operation := .randomInteger, destination := some (.register 0), left := number 1, right := number 6, line := 1 }
    let m : Machine Device := new ⟨1, 0, 0, 0⟩ 7 {}
    ((sources throwing).run m = .ok (1, 6) m ∧ (1 : Float) ≤ 6) ∧
      (∀ x y, 1 ≤ chosen 1 6 x y ∧ chosen 1 6 x y ≤ 6) ∧
      ∃ k : Int64, 1 ≤ k ∧ k ≤ 6 ∧ ∃ generator,
        (execute { target := .debug, instructions := #[throwing] } 0 0 throwing).run m =
          .ok .next { m with registers := #[Float.ofInt k.toInt], random := generator } := by
  intro number throwing m
  have hread : (sources throwing).run m = .ok (1, 6) m := by
    show EStateM.Result.ok ((Number.Stored.ofFloat 1).toFloat, (Number.Stored.ofFloat 6).toFloat) m = _
    rw [Number.toFloat_ofFloat, Number.toFloat_ofFloat]
  have hle : (1 : Float) ≤ 6 := by decide +kernel
  obtain ⟨hwords, hrun⟩ := execute_randomInteger_between { target := .debug, instructions := #[throwing] } 0 0
    (i := throwing) rfl hread hle
  have hlow : Number.toSignedWide 1 = 1 := by decide +kernel
  have hhigh : Number.toSignedWide 6 = 6 := by decide +kernel
  rw [hlow, hhigh] at hwords hrun
  exact ⟨⟨hread, hle⟩, hwords, _, (hwords _ _).1, (hwords _ _).2, _, hrun⟩

end VirtualProcessor.Machine
