import VirtualProcessor.Proofs.Arena.FirstFit

/-!
# An arena that checks every access

The operations of an arena index and slice arrays and add addresses, and nothing stops them outside of an array or
beyond the words of a machine. Here they are once more with every such access checked (`Guarded`): the first that is
not right ends the operation with a `Breach`. On an arena with one tag for each cell, and not more cells than there
are words of 32 bits, nothing is ever breached and the checked operations are the ones of the arena
(`guardedAllocate_eq`, `guardedFree_eq`, `guardedLoad_eq`, `guardedStore_eq`).
-/

namespace VirtualProcessor

/-- What a program that checks nothing itself must not do. -/
inductive Breach where
  /-- An index is not inside its array. -/
  | index
  /-- A slice does not lie inside its array, or ends before it begins. -/
  | slice
  /-- The result of a sum or a difference is not a word. -/
  | overflow
  /-- A number is drawn from a range without any. -/
  | emptyRange
deriving DecidableEq, Repr

/-- A computation that ends with its first breach. -/
abbrev Guarded := Except Breach

theorem ok_bind {ε α β : Type} (a : α) (f : α → Except ε β) : (Except.ok a >>= f) = f a := rfl

namespace Guarded

variable {α : Type}

def get (xs : Array α) (k : Nat) : Guarded α :=
  match xs[k]? with
  | some x => .ok x
  | none => .error .index

def set (xs : Array α) (k : Nat) (x : α) : Guarded (Array α) :=
  if k < xs.size then .ok (xs.setIfInBounds k x) else .error .index

/-- The places from `base` up to but not including `stop` are a slice of an array. -/
def slice (xs : Array α) (base stop : Nat) : Guarded Unit :=
  if base ≤ stop ∧ stop ≤ xs.size then .ok () else .error .slice

def fill (xs : Array α) (base stop : Nat) (x : α) : Guarded (Array α) := do
  slice xs base stop
  .ok (Arena.fill xs base stop x)

/-- The sum of two words, of which there are `words`. -/
def add (words a b : Nat) : Guarded Nat := if a + b < words then .ok (a + b) else .error .overflow

def sub (a b : Nat) : Guarded Nat := if b ≤ a then .ok (a - b) else .error .overflow

/-- There is a number from `low` up to `high`. -/
def range (low high : Int) : Guarded Unit := if high < low then .error .emptyRange else .ok ()

theorem get_eq {xs : Array α} {k : Nat} {x : α} (h : xs[k]? = some x) : get xs k = .ok x := by
  rw [get, h]

theorem set_eq {xs : Array α} {k : Nat} (h : k < xs.size) (x : α) : set xs k x = .ok (xs.setIfInBounds k x) :=
  if_pos h

theorem slice_eq {xs : Array α} {base stop : Nat} (h : base ≤ stop) (hstop : stop ≤ xs.size) :
    slice xs base stop = .ok () :=
  if_pos ⟨h, hstop⟩

theorem fill_eq {xs : Array α} {base stop : Nat} (h : base ≤ stop) (hstop : stop ≤ xs.size) (x : α) :
    fill xs base stop x = .ok (Arena.fill xs base stop x) := by
  rw [fill, slice_eq h hstop, ok_bind]

theorem add_eq {words a b : Nat} (h : a + b < words) : add words a b = .ok (a + b) := if_pos h

theorem range_eq {low high : Int} (h : ¬ high < low) : range low high = .ok () := if_neg h

theorem sub_eq {a b : Nat} (h : b ≤ a) : sub a b = .ok (a - b) := if_pos h

end Guarded

namespace Arena

open Number

/-! ## Allocation -/

def guardedSearch? (tags : Array Nat) (length : Nat) : (fuel : Nat) → (base : Nat) → Guarded (Option Nat)
  | 0, _ => .ok none
  | fuel + 1, base => do
    let stop ← Guarded.add UInt64.size base length
    if stop ≤ tags.size then
      Guarded.slice tags base stop
      match lastTaken? tags base length with
      | none => .ok (some base)
      | some taken =>
        let behind ← Guarded.add UInt64.size taken 1
        guardedSearch? tags length fuel (← Guarded.add UInt64.size base behind)
    else .ok none

def guardedAllocate (a : Arena) (length : Float) : Guarded (Except Refusal (Nat × Arena)) :=
  match wholePart? length with
  | none | some 0 => .ok (.error .badLength)
  | some cells =>
    if a.tags.size ≤ cells then .ok (.error .outOfMemory)
    else do
      match ← guardedSearch? a.tags cells a.tags.size 1 with
      | none => .ok (.error .outOfMemory)
      | some base =>
        let stop ← Guarded.add UInt64.size base cells
        let tags ← Guarded.fill a.tags base stop base
        let zeroed ← Guarded.fill a.cells base stop 0
        .ok (.ok (base, ⟨zeroed, tags⟩))

/-! ## Access -/

def guardedFree (a : Arena) (pointer : Float) : Guarded (Except Refusal Arena) :=
  match a.address pointer with
  | .error e => .ok (.error e)
  | .ok base => do
    let owner ← Guarded.get a.tags base
    if owner = 0 then .ok (.error .doubleFree)
    else if owner ≠ base then .ok (.error .violation)
    else
      Guarded.slice a.tags base a.tags.size
      let stop ← Guarded.add UInt64.size base (runLength a.tags base owner)
      let tags ← Guarded.fill a.tags base stop 0
      let cells ← Guarded.fill a.cells base stop 0
      .ok (.ok ⟨cells, tags⟩)

def guardedAllocated (a : Arena) (pointer : Float) : Guarded (Except Refusal Nat) :=
  match a.address pointer with
  | .error e => .ok (.error e)
  | .ok n => do
    if (← Guarded.get a.tags n) = 0 then .ok (.error .unallocated) else .ok (.ok n)

def guardedLoad (a : Arena) (pointer : Float) : Guarded (Except Refusal Float) := do
  match ← a.guardedAllocated pointer with
  | .error e => .ok (.error e)
  | .ok n => .ok (.ok (← Guarded.get a.cells n))

def guardedStore (a : Arena) (pointer value : Float) : Guarded (Except Refusal Arena) := do
  match ← a.guardedAllocated pointer with
  | .error e => .ok (.error e)
  | .ok n => .ok (.ok { a with cells := ← Guarded.set a.cells n value })

/-! ## Nothing is breached -/

theorem add_wide {a b : Nat} (ha : a < UInt32.size) (hb : b < UInt32.size) :
    Guarded.add UInt64.size a b = .ok (a + b) := by
  have hsizes : UInt32.size + UInt32.size ≤ UInt64.size := by decide
  exact Guarded.add_eq (by omega)

theorem getElem?_tags {tags : Array Nat} {x : Nat} (h : x < tags.size) : tags[x]? = some (tag tags x) := by
  rw [tag, Array.getElem?_eq_getElem h, Option.getD_some]

theorem guardedSearch?_eq {tags : Array Nat} {n : Nat} (hn : n ≤ tags.size) (hsize : tags.size < UInt32.size)
    (fuel : Nat) {base : Nat} (hbase : base ≤ tags.size) :
    guardedSearch? tags n fuel base = .ok (search? tags n fuel base) := by
  induction fuel generalizing base with
  | zero => rfl
  | succ fuel ih =>
    rw [guardedSearch?, search?, add_wide (by omega) (by omega), ok_bind]
    by_cases hfit : base + n ≤ tags.size
    · rw [if_pos hfit, if_pos hfit, Guarded.slice_eq (Nat.le_add_right base n) hfit, ok_bind]
      cases htaken : lastTaken? tags base n with
      | none => rfl
      | some taken =>
        -- The taken cell is inside the window, so that the next base is at most its end.
        have hlt : taken < n := (lastTaken?_eq_some htaken).1
        simp only
        rw [add_wide (by omega) (by decide), ok_bind, add_wide (by omega) (by omega), ok_bind,
          ih (by omega), Nat.add_assoc]
    · rw [if_neg hfit, if_neg hfit]

variable {a : Arena}

/-- An arena with one tag for each cell, and not more cells than words. -/
structure Addressable (a : Arena) : Prop where
  size_tags : a.tags.size = a.cells.size
  size_lt : a.cells.size < UInt32.size

theorem guardedAllocate_eq (ha : a.Addressable) (length : Float) :
    a.guardedAllocate length = .ok (a.allocate length) := by
  have hsize : a.tags.size < UInt32.size := ha.size_tags ▸ ha.size_lt
  unfold guardedAllocate allocate
  cases wholePart? length with
  | none => rfl
  | some cells =>
    cases cells with
    | zero => rfl
    | succ k =>
      simp only
      by_cases hfull : a.tags.size ≤ k + 1
      · rw [if_pos hfull, if_pos hfull]
      · rw [if_neg hfull, if_neg hfull, guardedSearch?_eq (by omega) hsize _ (by omega), ok_bind, firstFit?]
        cases hfit : search? a.tags (k + 1) a.tags.size 1 with
        | none => rfl
        | some base =>
          have hle : base + (k + 1) ≤ a.tags.size := (search?_eq_some hfit).2.1
          simp only
          rw [add_wide (by omega) (by omega), ok_bind, Guarded.fill_eq (by omega) hle, ok_bind,
            Guarded.fill_eq (by omega) (ha.size_tags ▸ hle), ok_bind]

theorem guardedFree_eq (ha : a.Addressable) (pointer : Float) : a.guardedFree pointer = .ok (a.free pointer) := by
  unfold guardedFree
  cases haddress : a.address pointer with
  | error e => rw [free_of_address_error haddress]
  | ok base =>
    have hlt : base < a.tags.size := ha.size_tags ▸ (address_eq_ok_iff.mp haddress).2.2
    rw [free_of_address haddress]
    simp only
    rw [Guarded.get_eq (getElem?_tags hlt), ok_bind]
    split
    case isTrue => rfl
    case isFalse htaken =>
      split
      case isTrue => rfl
      case isFalse hown =>
        have hsize := ha.size_tags ▸ ha.size_lt
        have hle := add_runLength_le htaken rfl
        rw [Guarded.slice_eq (Nat.le_of_lt hlt) (Nat.le_refl _), ok_bind, add_wide (by omega) (by omega),
          ok_bind, Guarded.fill_eq (Nat.le_add_right _ _) hle, ok_bind,
          Guarded.fill_eq (Nat.le_add_right _ _) (ha.size_tags ▸ hle), ok_bind]
        rfl

theorem guardedAllocated_eq (ha : a.Addressable) (pointer : Float) :
    a.guardedAllocated pointer = .ok (a.allocated pointer) := by
  unfold guardedAllocated allocated
  cases haddress : a.address pointer with
  | error e => rfl
  | ok n =>
    have hlt : n < a.tags.size := ha.size_tags ▸ (address_eq_ok_iff.mp haddress).2.2
    simp only
    rw [Guarded.get_eq (getElem?_tags hlt), ok_bind, ok_bind]
    split <;> rfl

theorem lt_size_of_allocated {pointer : Float} {n : Nat} (h : a.allocated pointer = .ok n) : n < a.cells.size :=
  (address_eq_ok_iff.mp (allocated_eq_ok_iff.mp h).1).2.2

theorem guardedLoad_eq (ha : a.Addressable) (pointer : Float) : a.guardedLoad pointer = .ok (a.load pointer) := by
  unfold guardedLoad load
  rw [guardedAllocated_eq ha, ok_bind]
  cases h : a.allocated pointer with
  | error e => rfl
  | ok n =>
    have hn := Array.getElem?_eq_getElem (lt_size_of_allocated h)
    simp only
    rw [Guarded.get_eq hn, ok_bind, ok_bind, hn, Option.getD_some]

theorem guardedStore_eq (ha : a.Addressable) (pointer value : Float) :
    a.guardedStore pointer value = .ok (a.store pointer value) := by
  unfold guardedStore store
  rw [guardedAllocated_eq ha, ok_bind]
  cases h : a.allocated pointer with
  | error e => rfl
  | ok n =>
    simp only
    rw [Guarded.set_eq (lt_size_of_allocated h), ok_bind, ok_bind]

end Arena

end VirtualProcessor
