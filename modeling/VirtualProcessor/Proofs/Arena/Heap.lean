import Std.Data.ExtTreeMap
import VirtualProcessor.Proofs.Arena.Blocks
import VirtualProcessor.Proofs.Number.Whole

/-!
# The heap an arena stands for

An arena stands for a heap: a finite map from the bases of its blocks to the values in them (`heap`). The
map says everything about an arena that requests can lead to (`WellTagged.eq_of_heap_eq`), and each request
is the plain operation on maps:

* `WellTagged.heap_take`: allocating a block enters zeros under a new base, away from every other block;
* `WellTagged.heap_give`: freeing one erases it, and is the way back from allocating it
  (`WellTagged.give_take`);
* `WellTagged.heap_write`: storing a value sets one entry of one block.

A cell of a block holds what was stored in it last since the block was allocated, which is read off the
requests alone (`lastStored`, `Ledger.cell_eq_lastStored`).
-/

namespace VirtualProcessor.Arena

open Number

/-- Blocks by their bases, each with its values. -/
abbrev Heap := Std.ExtTreeMap Nat (List Float)

namespace Heap

/-- The block at `base` reaches over address `x`, where it has a value. -/
def Holds (h : Heap) (base x : Nat) (value : Float) : Prop :=
  ∃ values, h[base]? = some values ∧ base ≤ x ∧ values[x - base]? = some value

def Covers (h : Heap) (base x : Nat) : Prop := ∃ value, h.Holds base x value

/-- `n` addresses from `base` on are away from every block, from the null address and from the end. -/
structure Room (h : Heap) (size base n : Nat) : Prop where
  base_pos : 0 < base
  le_size : base + n ≤ size
  apart : ∀ b values, h[b]? = some values → b + values.length ≤ base ∨ base + n ≤ b

end Heap

/-- A block starts at `base`. -/
def Live (a : Arena) (base : Nat) : Prop := base ≠ 0 ∧ tag a.tags base = base

instance (a : Arena) (base : Nat) : Decidable (a.Live base) := inferInstanceAs (Decidable (_ ∧ _))

/-- The values of the block that starts at `base`. -/
def block (a : Arena) (base : Nat) : List Float :=
  (List.range (runLength a.tags base base)).map fun k => a.cell (base + k)

/-- The blocks with bases below a bound. -/
def heapBelow (a : Arena) : Nat → Heap
  | 0 => ∅
  | n + 1 => if a.Live n then (a.heapBelow n).insert n (a.block n) else a.heapBelow n

/-- All blocks of an arena. -/
def heap (a : Arena) : Heap := a.heapBelow a.tags.size

/-- Two arenas have the same cells and tags, but for the addresses from `base` up to `stop`. -/
def SameOutside (a b : Arena) (base stop : Nat) : Prop :=
  ∀ x, ¬ (base ≤ x ∧ x < stop) → b.cells[x]? = a.cells[x]? ∧ b.tags[x]? = a.tags[x]?

theorem sameOutside_retag (a : Arena) (base n value : Nat) :
    a.SameOutside (a.retag base n value) base (base + n) := fun x hx => by
  simp [retag, fill, hx]

theorem sameOutside_write (a : Arena) (x : Nat) (value : Float) :
    a.SameOutside { a with cells := a.cells.setIfInBounds x value } x (x + 1) := fun y hy =>
  ⟨Array.getElem?_setIfInBounds_ne (by omega), rfl⟩

/-! ## Reading the heap -/

theorem getElem?_heapBelow (a : Arena) (n base : Nat) :
    (a.heapBelow n)[base]? = if base < n ∧ a.Live base then some (a.block base) else none := by
  induction n with
  | zero => simp [heapBelow]
  | succ n ih =>
    by_cases hlive : a.Live n
    · by_cases hbase : n = base
      · subst hbase
        simp [heapBelow, hlive]
      · have hlt : base < n + 1 ↔ base < n := by omega
        simp [heapBelow, hlive, Std.ExtTreeMap.getElem?_insert, hbase, hlt, ih]
    · have hlt : base < n + 1 ∧ a.Live base ↔ base < n ∧ a.Live base := by
        refine and_congr_left fun hb => ?_
        have : base ≠ n := fun h => hlive (h ▸ hb)
        omega
      rw [heapBelow, if_neg hlive, ih, if_congr hlt rfl rfl]

theorem getElem?_heap (a : Arena) (base : Nat) :
    a.heap[base]? = if a.Live base then some (a.block base) else none := by
  have hlt : base < a.tags.size ∧ a.Live base ↔ a.Live base :=
    and_iff_right_of_imp fun h => lt_size_of_tag (h.2.symm ▸ h.1)
  rw [heap, getElem?_heapBelow, if_congr hlt rfl rfl]

theorem mem_heap_iff (a : Arena) (base : Nat) : base ∈ a.heap ↔ a.Live base := by
  rw [Std.ExtTreeMap.mem_iff_isSome_getElem?, getElem?_heap]
  split <;> simpa

@[simp] theorem length_block (a : Arena) (base : Nat) :
    (a.block base).length = runLength a.tags base base := by
  simp [block]

theorem getElem?_block (a : Arena) (base k : Nat) :
    (a.block base)[k]? =
      if k < runLength a.tags base base then some (a.cell (base + k)) else none := by
  by_cases hk : k < runLength a.tags base base
  · simp [block, hk]
  · rw [if_neg hk, List.getElem?_eq_none (by simpa using hk)]

/-- The entry of a heap depends on the cells with its tag only. -/
theorem getElem?_heap_congr {a b : Arena} {base : Nat}
    (h : base ≠ 0 → ∀ x, (tag b.tags x = base ↔ tag a.tags x = base) ∧
      (tag a.tags x = base → b.cell x = a.cell x)) :
    b.heap[base]? = a.heap[base]? := by
  rw [getElem?_heap, getElem?_heap]
  by_cases hbase : base = 0
  · rw [if_neg fun hlive => hlive.1 hbase, if_neg fun hlive => hlive.1 hbase]
  · have htag := fun x => (h hbase x).1
    have hlive : b.Live base ↔ a.Live base := and_congr_right fun _ => htag base
    have hlength : runLength b.tags base base = runLength a.tags base base :=
      runLength_eq hbase (fun k hk => (htag _).mpr (tag_of_lt_runLength hk))
        fun hend => tag_runLength_ne hbase ((htag _).mp hend)
    have hblock : b.block base = a.block base := by
      unfold block
      rw [hlength]
      refine List.map_congr_left fun k hk => (h hbase _).2 ?_
      exact tag_of_lt_runLength (List.mem_range.mp hk)
    rw [hblock, if_congr hlive rfl rfl]

namespace WellTagged

variable {a b : Arena}

theorem holds_iff (h : a.WellTagged) {base x : Nat} {value : Float} :
    a.heap.Holds base x value ↔ base ≠ 0 ∧ tag a.tags x = base ∧ a.cell x = value := by
  constructor
  · rintro ⟨values, hblock, hle, hvalue⟩
    rw [getElem?_heap] at hblock
    split at hblock
    case isFalse => exact absurd hblock nofun
    case isTrue hlive =>
      obtain rfl := Option.some.inj hblock
      rw [getElem?_block] at hvalue
      split at hvalue
      case isFalse => exact absurd hvalue nofun
      case isTrue hlt =>
        rw [Nat.add_sub_cancel' hle] at hvalue
        exact ⟨hlive.1, (h.tag_eq_iff hlive.1 x).mpr ⟨hle, by omega⟩, Option.some.inj hvalue⟩
  · rintro ⟨hpos, rfl, rfl⟩
    obtain ⟨hle, hlt⟩ := (h.tag_eq_iff hpos x).mp rfl
    refine ⟨a.block (tag a.tags x), ?_, hle, ?_⟩
    · rw [getElem?_heap, if_pos ⟨hpos, h.tag_tag x hpos⟩]
    · rw [getElem?_block, if_pos (by omega), Nat.add_sub_cancel' hle]

theorem covers_iff (h : a.WellTagged) {base x : Nat} :
    a.heap.Covers base x ↔ base ≠ 0 ∧ tag a.tags x = base := by
  simp [Heap.Covers, h.holds_iff]

theorem exists_covers_iff (h : a.WellTagged) {x : Nat} :
    (∃ base, a.heap.Covers base x) ↔ tag a.tags x ≠ 0 := by
  simp [h.covers_iff]

/-- An arena is known by its size and its heap. -/
theorem eq_of_heap_eq (ha : a.WellTagged) (hb : b.WellTagged) (hsize : a.cells.size = b.cells.size)
    (hheap : a.heap = b.heap) : a = b := by
  have htag : ∀ x, tag a.tags x = tag b.tags x := fun x => by
    have hcovers : ∀ base, base ≠ 0 → (tag a.tags x = base ↔ tag b.tags x = base) := fun base hpos => by
      have hiff : a.heap.Covers base x ↔ base ≠ 0 ∧ tag a.tags x = base := ha.covers_iff
      rw [hheap, hb.covers_iff] at hiff
      simpa [hpos] using hiff.symm
    by_cases hx : tag a.tags x = 0
    · by_contra hne
      exact hne ((hcovers _ fun h => hne (hx.trans h.symm)).mpr rfl)
    · exact ((hcovers _ hx).mp rfl).symm
  have hcell : ∀ x, a.cell x = b.cell x := fun x => by
    by_cases hx : tag a.tags x = 0
    · rw [ha.cell_eq_zero x hx, hb.cell_eq_zero x (htag x ▸ hx)]
    · have hholds : a.heap.Holds (tag a.tags x) x (a.cell x) := ha.holds_iff.mpr ⟨hx, rfl, rfl⟩
      rw [hheap, hb.holds_iff] at hholds
      exact hholds.2.2.symm
  exact ext_of_cell_tag hsize (by rw [ha.size_tags, hb.size_tags, hsize]) hcell htag

/-! ## Operations on the heap -/

theorem not_live_of_gap {base n : Nat} (hgap : a.Gap base n) (hn : 0 < n) : ¬ a.Live base := by
  rintro ⟨hpos, hown⟩
  have := hgap.tag_eq_zero base (Nat.le_refl _) (by omega)
  omega

theorem tag_take_base {base n : Nat} (hgap : a.Gap base n) (hn : 0 < n) :
    tag (a.retag base n base).tags base = base := by
  rw [tag_retag hgap.le_size, if_pos (by omega)]

theorem room (h : a.WellTagged) {base n : Nat} (hgap : a.Gap base n) (hn : 0 < n) :
    a.heap.Room a.tags.size base n := by
  refine ⟨hgap.base_pos, hgap.le_size, fun b values hb => ?_⟩
  rw [getElem?_heap] at hb
  split at hb
  case isFalse => exact absurd hb nofun
  case isTrue hlive =>
    obtain rfl := Option.some.inj hb
    rw [length_block]
    by_contra hmeet
    -- The first address that both have would carry the tag of the block and be free.
    have hin : tag a.tags (max b base) = b := by
      refine (h.tag_eq_iff hlive.1 _).mpr ⟨Nat.le_max_left .., ?_⟩
      have := ((h.tag_eq_iff hlive.1 b).mp hlive.2).2
      omega
    have hfree : tag a.tags (max b base) = 0 := hgap.tag_eq_zero _ (Nat.le_max_right ..) (by omega)
    exact hlive.1 (hin.symm.trans hfree)

/-- A new block has the cells of its gap and no more. -/
theorem block_take (h : a.WellTagged) {base n : Nat} (hgap : a.Gap base n) (hn : 0 < n) :
    (a.retag base n base).block base = List.replicate n 0 := by
  have htag := tag_retag hgap.le_size base
  have hbase : base ≠ 0 := Nat.ne_of_gt hgap.base_pos
  have hfree : tag a.tags base = 0 := hgap.tag_eq_zero base (Nat.le_refl _) (by omega)
  have hlength : runLength (a.retag base n base).tags base base = n := by
    refine runLength_eq hbase (fun k hk => by rw [htag, if_pos (by omega)]) ?_
    rw [htag, if_neg (by omega)]
    -- A cell behind the gap with this tag would be the end of a run that the gap interrupts.
    intro hend
    have hrun := h.run (base + n) base (by omega) (by omega) (by omega)
    omega
  refine List.eq_replicate_iff.mpr ⟨by rw [length_block, hlength], fun value hvalue => ?_⟩
  obtain ⟨k, hk, rfl⟩ := List.mem_map.mp hvalue
  rw [List.mem_range, hlength] at hk
  rw [cell_retag (h.size_tags ▸ hgap.le_size), if_pos (by omega)]

/-- Taking a block enters it, with zeros. -/
theorem heap_take (h : a.WellTagged) {base n : Nat} (hgap : a.Gap base n) (hn : 0 < n) :
    (a.retag base n base).heap = a.heap.insert base (List.replicate n 0) := by
  refine Std.ExtTreeMap.ext_getElem? fun b => ?_
  rw [Std.ExtTreeMap.getElem?_insert]
  by_cases hb : base = b
  · subst hb
    have hlive : (a.retag base n base).Live base :=
      ⟨Nat.ne_of_gt hgap.base_pos, tag_take_base hgap hn⟩
    rw [getElem?_heap, if_pos hlive, h.block_take hgap hn, if_pos (by simp)]
  · rw [if_neg (by simpa using hb)]
    refine getElem?_heap_congr fun hpos x => ⟨?_, fun hx => ?_⟩
    · rw [tag_retag hgap.le_size]
      split
      case isTrue hin =>
        rw [hgap.tag_eq_zero x hin.1 hin.2]
        omega
      case isFalse => rfl
    · rw [cell_retag (h.size_tags ▸ hgap.le_size), if_neg fun hin => ?_]
      exact hpos (hx.symm.trans (hgap.tag_eq_zero x hin.1 hin.2))

/-- Giving a block back erases it. -/
theorem heap_give (h : a.WellTagged) {base : Nat} (hlive : a.Live base) :
    (a.retag base (runLength a.tags base base) 0).heap = a.heap.erase base := by
  obtain ⟨hbase, hown⟩ := hlive
  have htag := h.tag_give hbase hown
  refine Std.ExtTreeMap.ext_getElem? fun b => ?_
  rw [Std.ExtTreeMap.getElem?_erase]
  by_cases hb : base = b
  · subst hb
    have hdead : ¬ (a.retag base (runLength a.tags base base) 0).Live base := by
      rintro ⟨-, hstill⟩
      rw [htag, if_pos hown] at hstill
      exact hbase hstill.symm
    rw [getElem?_heap, if_neg hdead, if_pos (by simp)]
  · rw [if_neg (by simpa using hb)]
    refine getElem?_heap_congr fun hpos x => ⟨?_, fun hx => ?_⟩
    · rw [htag]
      split
      case isTrue hx => omega
      case isFalse => rfl
    · rw [h.cell_give hbase hown, if_neg (by omega)]

theorem block_write (h : a.WellTagged) {base x : Nat} (hx : tag a.tags x ≠ 0) (hle : base ≤ x)
    (value : Float) :
    ({ a with cells := a.cells.setIfInBounds x value } : Arena).block base =
      (a.block base).set (x - base) value := by
  refine List.ext_getElem? fun k => ?_
  rw [getElem?_block, List.getElem?_set, length_block, getElem?_block,
    cell_setIfInBounds (h.lt_size hx)]
  by_cases hk : x - base = k
  · rw [if_pos hk, if_pos (show x = base + k by omega)]
    simp only [hk]
  · rw [if_neg hk, if_neg (show x ≠ base + k by omega)]

/-- Writing a cell sets one value of its block. -/
theorem heap_write (h : a.WellTagged) {x : Nat} (hx : tag a.tags x ≠ 0) (value : Float) :
    ({ a with cells := a.cells.setIfInBounds x value } : Arena).heap =
      a.heap.modify (tag a.tags x) (·.set (x - tag a.tags x) value) := by
  refine Std.ExtTreeMap.ext_getElem? fun b => ?_
  rw [Std.ExtTreeMap.getElem?_modify]
  by_cases hb : tag a.tags x = b
  · subst hb
    rw [if_pos (by simp), getElem?_heap, getElem?_heap, h.block_write hx (h.tag_le x)]
    have hlive : a.Live (tag a.tags x) := ⟨hx, h.tag_tag x hx⟩
    rw [if_pos hlive]
    exact if_pos hlive
  · rw [if_neg (by simpa using hb)]
    refine getElem?_heap_congr fun _ y => ⟨Iff.rfl, fun hy => ?_⟩
    rw [cell_setIfInBounds (h.lt_size hx), if_neg fun (hxy : x = y) => hb (hxy ▸ hy)]

/-- A block given back leaves the arena as it was before the block was taken. -/
theorem give_take (h : a.WellTagged) {base n : Nat} (hgap : a.Gap base n) (hn : 0 < n) :
    let b := a.retag base n base
    b.retag base (runLength b.tags base base) 0 = a := by
  intro b
  have hb : b.WellTagged := h.take hgap
  have hbase : base ≠ 0 := Nat.ne_of_gt hgap.base_pos
  have hown : tag b.tags base = base := tag_take_base hgap hn
  have hfresh : a.heap[base]? = none := by
    rw [getElem?_heap, if_neg (not_live_of_gap hgap hn)]
  refine (hb.give hbase hown).eq_of_heap_eq h (by simp [b]) ?_
  rw [hb.heap_give ⟨hbase, hown⟩, h.heap_take hgap hn]
  refine Std.ExtTreeMap.ext_getElem? fun x => ?_
  rw [Std.ExtTreeMap.getElem?_erase, Std.ExtTreeMap.getElem?_insert]
  by_cases hx : base = x
  · subst hx
    simp [hfresh]
  · simp [hx]

/-! ## Requests and the heap -/

theorem exists_free_ok_iff (h : a.WellTagged) {pointer : Float} :
    (∃ b, a.free pointer = .ok b) ↔ ∃ base, natural? pointer = some base ∧ base ∈ a.heap := by
  constructor
  · rintro ⟨b, hfree⟩
    obtain ⟨base, haddress, hown, -⟩ := free_ok hfree
    obtain ⟨hbase, hpos, -⟩ := address_eq_ok_iff.mp haddress
    exact ⟨base, hbase, (a.mem_heap_iff base).mpr ⟨Nat.ne_of_gt hpos, hown⟩⟩
  · rintro ⟨base, hbase, hmem⟩
    obtain ⟨hpos, hown⟩ := (a.mem_heap_iff base).mp hmem
    rw [free_of_address (h.address_eq hbase (hown.symm ▸ hpos)), hown, if_neg hpos, if_neg (not_not.mpr rfl)]
    exact ⟨_, rfl⟩

theorem free_eq_doubleFree_iff (h : a.WellTagged) {pointer : Float} :
    a.free pointer = .error .doubleFree ↔
      ∃ x, natural? pointer = some x ∧ 0 < x ∧ x < a.cells.size ∧ ¬ ∃ base, a.heap.Covers base x := by
  simp only [h.exists_covers_iff, not_not]
  constructor
  · intro hfree
    cases hx : a.address pointer with
    | error e =>
      rw [free_of_address_error hx] at hfree
      obtain rfl := Except.error.inj hfree
      exact absurd (address_eq_error hx) (by decide)
    | ok x =>
      rw [free_of_address hx] at hfree
      split at hfree
      case isTrue hzero =>
        obtain ⟨hx, hpos, hlt⟩ := address_eq_ok_iff.mp hx
        exact ⟨x, hx, hpos, hlt, hzero⟩
      case isFalse =>
        split at hfree
        · exact absurd (Except.error.inj hfree) (by decide)
        · exact absurd hfree nofun
  · rintro ⟨x, hx, hpos, hlt, hzero⟩
    rw [free_of_address (address_eq_ok_iff.mpr ⟨hx, hpos, hlt⟩), if_pos hzero]

theorem free_interior (h : a.WellTagged) {pointer : Float} {base x : Nat}
    (hx : natural? pointer = some x) (hcovers : a.heap.Covers base x) (hne : x ≠ base) :
    a.free pointer = .error .violation := by
  obtain ⟨hbase, rfl⟩ := h.covers_iff.mp hcovers
  rw [free_of_address (h.address_eq hx hbase), if_neg hbase, if_pos hne.symm]

/-- The addresses at which values are stored and loaded. -/
theorem allocated_iff (h : a.WellTagged) {pointer : Float} {x : Nat} :
    a.allocated pointer = .ok x ↔ natural? pointer = some x ∧ ∃ base, a.heap.Covers base x := by
  rw [allocated_eq_ok_iff, h.exists_covers_iff]
  exact and_congr_left fun htag => ⟨fun hx => (address_eq_ok_iff.mp hx).1, fun hx => h.address_eq hx htag⟩

theorem load_eq_ok_iff (h : a.WellTagged) {pointer value : Float} :
    a.load pointer = .ok value ↔
      ∃ base x, natural? pointer = some x ∧ a.heap.Holds base x value := by
  constructor
  · intro hload
    obtain ⟨x, hx, rfl⟩ := load_ok hload
    obtain ⟨hx, base, hcovers⟩ := h.allocated_iff.mp hx
    obtain ⟨hpos, htag⟩ := h.covers_iff.mp hcovers
    exact ⟨base, x, hx, h.holds_iff.mpr ⟨hpos, htag, rfl⟩⟩
  · rintro ⟨base, x, hx, hholds⟩
    have hallocated : a.allocated pointer = .ok x := h.allocated_iff.mpr ⟨hx, base, value, hholds⟩
    obtain ⟨-, -, rfl⟩ := h.holds_iff.mp hholds
    unfold load
    rw [hallocated]
    rfl

theorem exists_store_ok_iff (h : a.WellTagged) {pointer value : Float} :
    (∃ b, a.store pointer value = .ok b) ↔
      ∃ base x, natural? pointer = some x ∧ a.heap.Covers base x := by
  constructor
  · rintro ⟨b, hstore⟩
    obtain ⟨x, hx, -⟩ := store_ok hstore
    obtain ⟨hx, base, hcovers⟩ := h.allocated_iff.mp hx
    exact ⟨base, x, hx, hcovers⟩
  · rintro ⟨base, x, hx, hcovers⟩
    have hallocated : a.allocated pointer = .ok x := h.allocated_iff.mpr ⟨hx, base, hcovers⟩
    refine ⟨{ a with cells := a.cells.setIfInBounds x value }, ?_⟩
    unfold store
    rw [hallocated]
    rfl

/-- A stored value is set in its block, and every other cell stays. -/
theorem store_refines (h : a.WellTagged) {pointer value : Float} (hstore : a.store pointer value = .ok b) :
    ∃ base x, natural? pointer = some x ∧ a.heap.Covers base x ∧
      b.heap = a.heap.modify base (·.set (x - base) value) ∧ b.tags = a.tags ∧
      b.cells[x]? = some value ∧ a.SameOutside b x (x + 1) := by
  obtain ⟨x, hx, rfl⟩ := store_ok hstore
  obtain ⟨hx, base, hcovers⟩ := h.allocated_iff.mp hx
  obtain ⟨hpos, rfl⟩ := h.covers_iff.mp hcovers
  exact ⟨_, x, hx, hcovers, h.heap_write hpos value, rfl,
    Array.getElem?_setIfInBounds_self_of_lt (h.lt_size hpos), a.sameOutside_write x value⟩

/-- A freed block is erased, all its cells are free and hold 0, and every other cell stays. -/
theorem free_refines (h : a.WellTagged) {pointer : Float} (hfree : a.free pointer = .ok b) :
    ∃ base values, natural? pointer = some base ∧ a.heap[base]? = some values ∧
      b.heap = a.heap.erase base ∧
      (∀ x, base ≤ x → x < base + values.length → b.cells[x]? = some 0 ∧ b.tags[x]? = some 0) ∧
      a.SameOutside b base (base + values.length) := by
  obtain ⟨base, haddress, hown, rfl⟩ := free_ok hfree
  obtain ⟨hbase, hpos, -⟩ := address_eq_ok_iff.mp haddress
  have hlive : a.Live base := ⟨Nat.ne_of_gt hpos, hown⟩
  have hend : base + runLength a.tags base base ≤ a.tags.size := add_runLength_le hlive.1 hown
  refine ⟨base, a.block base, hbase, by rw [getElem?_heap, if_pos hlive], h.heap_give hlive, ?_, ?_⟩
  · intro x hle hlt
    rw [length_block] at hlt
    have hcells : x < a.cells.size := by rw [← h.size_tags]; omega
    have htags : x < a.tags.size := by omega
    simp [retag, fill, hle, hlt, hcells, htags]
  · rw [length_block]
    exact a.sameOutside_retag _ _ _

/-- An allocated block is entered with zeros under a base of its own, away from the other blocks, and every
other cell stays. -/
theorem allocate_refines (h : a.WellTagged) {length : Float} {base : Nat}
    (hallocate : a.allocate length = .ok (base, b)) :
    ∃ n, wholePart? length = some n ∧ 0 < n ∧ base ∉ a.heap ∧ a.heap.Room a.tags.size base n ∧
      b.heap = a.heap.insert base (List.replicate n 0) ∧ a.SameOutside b base (base + n) := by
  obtain ⟨n, hlength, hn, hgap, rfl⟩ := allocate_ok hallocate
  exact ⟨n, hlength, hn, fun hmem => not_live_of_gap hgap hn ((a.mem_heap_iff base).mp hmem),
    h.room hgap hn, h.heap_take hgap hn, a.sameOutside_retag _ _ _⟩

/-- Freeing the block that was allocated last gives back the arena as it was. -/
theorem free_allocate (h : a.WellTagged) {length : Float} {base : Nat}
    (hallocate : a.allocate length = .ok (base, b)) {pointer : Float}
    (hpointer : natural? pointer = some base) : b.free pointer = .ok a := by
  obtain ⟨n, hlength, hn, hgap, rfl⟩ := allocate_ok hallocate
  have hbase : base ≠ 0 := Nat.ne_of_gt hgap.base_pos
  have hown : tag (a.retag base n base).tags base = base := tag_take_base hgap hn
  rw [free_of_address ((h.take hgap).address_eq hpointer (hown.symm ▸ hbase)), hown, if_neg hbase,
    if_neg (not_not.mpr rfl), h.give_take hgap hn]

end WellTagged

/-! ## What was stored last -/

/-- The value that a cell has by the requests granted so far, the latest first: the last value stored in it
since a block was allocated over it, 0 if none was. -/
def lastStored (x : Nat) : List (Request × Except Refusal Reply) → Float
  | [] => 0
  | (.store pointer value, .ok _) :: earlier =>
    if natural? pointer = some x then value else lastStored x earlier
  | (.allocate length, .ok (.base base)) :: earlier =>
    if base ≤ x ∧ x < base + (wholePart? length).getD 0 then 0 else lastStored x earlier
  | _ :: earlier => lastStored x earlier

theorem Recorded.cell_eq_lastStored {l l' : Ledger} {r : Request} (h : Recorded l r l')
    (hwell : l.arena.WellTagged)
    (hl : ∀ x, tag l.arena.tags x ≠ 0 → l.arena.cell x = lastStored x l.entries) (x : Nat)
    (hx : tag l'.arena.tags x ≠ 0) : l'.arena.cell x = lastStored x l'.entries := by
  cases h with
  | refused h =>
    rw [hl x hx]
    cases r <;> rfl
  | @taken length n base hn hgap =>
    rw [cell_retag (hwell.size_tags ▸ hgap.le_size)]
    rw [tag_retag hgap.le_size] at hx
    simp only [lastStored, hn, Option.getD_some]
    split
    case isTrue => rfl
    case isFalse hout => exact hl x (by rwa [if_neg hout] at hx)
  | given haddress hown =>
    have hbase := Nat.ne_of_gt (address_eq_ok_iff.mp haddress).2.1
    rw [hwell.tag_give hbase hown] at hx
    rw [hwell.cell_give hbase hown]
    split
    case isTrue hin => exact absurd (if_pos hin) hx
    case isFalse hout => exact hl x (by rwa [if_neg hout] at hx)
  | @written pointer value y hy =>
    obtain ⟨haddress, hy⟩ := allocated_eq_ok_iff.mp hy
    rw [cell_setIfInBounds (hwell.lt_size hy)]
    simp only [lastStored, (address_eq_ok_iff.mp haddress).1, Option.some.injEq]
    split
    case isTrue => rfl
    case isFalse => exact hl x hx
  | read => exact hl x hx
  | cleared =>
    refine absurd ?_ hx
    show tag l.arena.clear.tags x = 0
    rw [hwell.clear_eq, tag_new]

theorem Ledger.cell_eq_lastStored (size : Nat) (requests : List Request) {x : Nat}
    (hx : tag (of size requests).arena.tags x ≠ 0) :
    (of size requests).arena.cell x = lastStored x (of size requests).entries := by
  have hall : (of size requests).arena.WellTagged ∧
      ∀ x, tag (of size requests).arena.tags x ≠ 0 →
        (of size requests).arena.cell x = lastStored x (of size requests).entries := by
    refine of_induction (P := fun l => l.arena.WellTagged ∧
      ∀ x, tag l.arena.tags x ≠ 0 → l.arena.cell x = lastStored x l.entries) ?_ ?_ requests
    · exact ⟨.new size, fun x hx => absurd (tag_new size x) hx⟩
    · exact fun l r l' hl h => ⟨h.wellTagged hl.1, h.cell_eq_lastStored hl.1 hl.2⟩
  exact hall.2 x hx

/-- Every arena that requests lead to stands for a heap, and every request is the operation on heaps that
it names. The heap says all there is to say about the arena. A granted allocation enters a block of zeros,
as many as the whole part of the length, away from all blocks, and freeing it at once undoes it. A block is
freed at its base only, and then all of it goes and nothing else; a free cell gives a double free, the inside
of a block a violation. Values are stored and loaded exactly at the addresses of blocks: what is loaded was
stored there last since the block was allocated, and what is stored changes one cell. A refused request
changes nothing. -/
theorem Ledger.arena_refines_heap (size : UInt32) (requests : List Request) :
    let l := of size.toNat requests
    let a := l.arena
    (∀ others, (of size.toNat others).arena.heap = a.heap → (of size.toNat others).arena = a) ∧
      (∀ length base b, a.allocate length = .ok (base, b) →
        (∃ n, wholePart? length = some n ∧ 0 < n ∧ base ∉ a.heap ∧ a.heap.Room size.toNat base n ∧
          b.heap = a.heap.insert base (List.replicate n 0) ∧ a.SameOutside b base (base + n)) ∧
        b.free (Float.ofNat base) = .ok a) ∧
      (∀ pointer, (∃ b, a.free pointer = .ok b) ↔
        ∃ base, natural? pointer = some base ∧ base ∈ a.heap) ∧
      (∀ pointer b, a.free pointer = .ok b →
        ∃ base values, natural? pointer = some base ∧ a.heap[base]? = some values ∧
          b.heap = a.heap.erase base ∧
          (∀ x, base ≤ x → x < base + values.length → b.cells[x]? = some 0 ∧ b.tags[x]? = some 0) ∧
          a.SameOutside b base (base + values.length)) ∧
      (∀ pointer, a.free pointer = .error .doubleFree ↔
        ∃ x, natural? pointer = some x ∧ 0 < x ∧ x < size.toNat ∧ ¬ ∃ base, a.heap.Covers base x) ∧
      (∀ pointer base x, natural? pointer = some x → a.heap.Covers base x → x ≠ base →
        a.free pointer = .error .violation) ∧
      (∀ pointer value, a.load pointer = .ok value ↔
        ∃ base x, natural? pointer = some x ∧ a.heap.Holds base x value) ∧
      (∀ pointer value x, a.load pointer = .ok value → natural? pointer = some x →
        value = lastStored x l.entries) ∧
      (∀ pointer value, (∃ b, a.store pointer value = .ok b) ↔
        ∃ base x, natural? pointer = some x ∧ a.heap.Covers base x) ∧
      (∀ pointer value b, a.store pointer value = .ok b →
        ∃ base x, natural? pointer = some x ∧ a.heap.Covers base x ∧
          b.heap = a.heap.modify base (·.set (x - base) value) ∧ b.tags = a.tags ∧
          b.cells[x]? = some value ∧ a.SameOutside b x (x + 1)) ∧
      ∀ r e, a.answer r = .error e → (l.record r).arena = a := by
  intro l a
  have hwell : a.WellTagged := wellTagged size.toNat requests
  have hcells : a.cells.size = size.toNat := size_cells size.toNat requests
  have htags : a.tags.size = size.toNat := size_tags size.toNat requests
  refine ⟨fun others hheap => ?_, fun length base b hb => ?_, fun _ => hwell.exists_free_ok_iff,
    fun _ _ => hwell.free_refines, fun pointer => ?_, fun _ _ _ => hwell.free_interior,
    fun _ _ => hwell.load_eq_ok_iff, fun pointer value x hload hx => ?_,
    fun _ _ => hwell.exists_store_ok_iff, fun _ _ _ => hwell.store_refines, fun r e hr => ?_⟩
  · refine (wellTagged size.toNat others).eq_of_heap_eq hwell ?_ hheap
    rw [size_cells, hcells]
  · obtain ⟨n, hn⟩ := hwell.allocate_refines hb
    refine ⟨⟨n, htags ▸ hn⟩, hwell.free_allocate hb (natural?_ofNat ?_)⟩
    have hroom := hn.2.2.2.1.le_size
    have hsize := size.toNat_lt
    omega
  · rw [← hcells]
    exact hwell.free_eq_doubleFree_iff
  · obtain ⟨y, hy, rfl⟩ := load_ok hload
    obtain ⟨haddress, htaken⟩ := allocated_eq_ok_iff.mp hy
    obtain rfl := Option.some.inj (hx.symm.trans (address_eq_ok_iff.mp haddress).1)
    exact cell_eq_lastStored size.toNat requests htaken
  · rw [record_of_error hr]

theorem Ledger.arena_refines_heap_neighbours :
    let l := of 8 neighbours
    let a := l.arena
    (∃ b, a.allocate 1.5 = .ok (6, b) ∧ b.free (Float.ofNat 6) = .ok a) ∧
      natural? 4 = some 4 ∧ a.heap.Holds 3 4 7 ∧ a.load 4 = .ok 7 ∧ lastStored 4 l.entries = 7 ∧
      a.free 4 = .error .violation := by
  intro l a
  obtain ⟨-, hallocate, -, -, -, hinterior, hload, hlast, -⟩ := arena_refines_heap 8 neighbours
  have hbase : (a.allocate 1.5).map Prod.fst = .ok 6 := by decide +kernel
  obtain ⟨⟨base, b⟩, hb, rfl⟩ := map_eq_ok hbase
  have hfour : natural? 4 = some 4 := by decide +kernel
  have hholds : a.heap.Holds 3 4 7 :=
    (wellTagged 8 neighbours).holds_iff.mpr ⟨by decide, by decide +kernel, by decide +kernel⟩
  have hseven : a.load 4 = .ok 7 := (hload 4 7).mpr ⟨3, 4, hfour, hholds⟩
  exact ⟨⟨b, hb, (hallocate 1.5 _ b hb).2⟩, hfour, hholds, hseven, (hlast 4 7 4 hseven hfour).symm,
    hinterior 4 3 4 hfour ⟨7, hholds⟩ (by decide)⟩

end VirtualProcessor.Arena
