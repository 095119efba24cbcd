import Mathlib.Tactic.Common
import VirtualProcessor.Arena

/-!
# The blocks of an arena

What requests do to an arena, address by address, and what no sequence of them can break:

* `tag_of_lt_runLength`, `tag_runLength_ne`, `runLength_eq`: the cells that `free` gives back;
* `firstFit?_gap`: the cells that `allocate` takes are all free;
* `address_eq_ok_iff`, `allocate_ok`, `free_ok`, `store_ok`, `load_ok`: what a granted request was, and what
  it left behind. Taking a block and giving one back are both a `retag`;
* `WellTagged`: tags form runs that start at their own address, and a free cell holds 0. Every request keeps
  this (`Ledger.wellTagged`), so the cells of a block are an interval (`WellTagged.tag_eq_iff`).
-/

namespace VirtualProcessor.Arena

open Number

/-- The value of a cell; cells that do not exist hold 0. -/
def cell (a : Arena) (x : Nat) : Float := a.cells[x]?.getD 0

/-! ## Runs of a tag -/

/-- The part of a list that equals a value and stands before anything else. -/
theorem getElem?_takeWhile_beq (l : List Nat) (value : Nat) :
    (∀ k < (l.takeWhile (· == value)).length, l[k]? = some value) ∧
      l[(l.takeWhile (· == value)).length]? ≠ some value := by
  induction l with
  | nil => simp
  | cons t l ih =>
    by_cases ht : t = value
    · subst ht
      simp only [List.takeWhile_cons, beq_self_eq_true, if_true, List.length_cons,
        List.getElem?_cons_succ]
      refine ⟨fun k hk => ?_, ih.2⟩
      cases k with
      | zero => rfl
      | succ k => exact ih.1 k (by omega)
    · simp [ht]

theorem tag_add (tags : Array Nat) (x k : Nat) :
    tag tags (x + k) = (tags.toList.drop x)[k]?.getD 0 := by
  simp [tag, List.getElem?_drop]

theorem tag_of_lt_runLength {tags : Array Nat} {x value k : Nat} (h : k < runLength tags x value) :
    tag tags (x + k) = value := by
  rw [tag_add, (getElem?_takeWhile_beq _ value).1 k h, Option.getD_some]

/-- A run ends at a cell with another tag, or where the arena ends. -/
theorem tag_runLength_ne {tags : Array Nat} {x value : Nat} (hv : value ≠ 0) :
    tag tags (x + runLength tags x value) ≠ value := by
  have h := (getElem?_takeWhile_beq (tags.toList.drop x) value).2
  rw [tag_add, runLength]
  cases ht : (tags.toList.drop x)[((tags.toList.drop x).takeWhile (· == value)).length]? with
  | none => simpa using hv.symm
  | some t => simpa [ht] using h

theorem runLength_eq {tags : Array Nat} {x value n : Nat} (hv : value ≠ 0)
    (hrun : ∀ k < n, tag tags (x + k) = value) (hend : tag tags (x + n) ≠ value) :
    runLength tags x value = n := by
  rcases Nat.lt_trichotomy (runLength tags x value) n with h | h | h
  · exact absurd (hrun _ h) (tag_runLength_ne hv)
  · exact h
  · exact absurd (tag_of_lt_runLength h) hend

theorem lt_size_of_tag {tags : Array Nat} {x : Nat} (h : tag tags x ≠ 0) : x < tags.size := by
  by_contra hx
  exact h (by simp [tag, Array.getElem?_eq_none (Nat.le_of_not_lt hx)])

/-- A run does not go beyond the arena. -/
theorem add_runLength_le {tags : Array Nat} {x value : Nat} (hv : value ≠ 0) (hx : tag tags x = value) :
    x + runLength tags x value ≤ tags.size := by
  cases hn : runLength tags x value with
  | zero => exact Nat.le_of_lt (lt_size_of_tag (hx ▸ hv))
  | succ k =>
    have hk : tag tags (x + k) = value := tag_of_lt_runLength (by omega)
    exact lt_size_of_tag (hk ▸ hv)

/-! ## Cells for a new block -/

theorem lastTaken?_eq_none_iff {tags : Array Nat} {base n : Nat} :
    lastTaken? tags base n = none ↔ ∀ k < n, tag tags (base + k) = 0 := by
  induction n with
  | zero => simp [lastTaken?]
  | succ n ih =>
    rw [lastTaken?]
    split
    case isTrue h =>
      rw [ih]
      refine ⟨fun hk k hkn => ?_, fun hk k hkn => hk k (by omega)⟩
      rcases Nat.lt_succ_iff_lt_or_eq.mp hkn with hlt | rfl
      · exact hk k hlt
      · exact h
    case isFalse h =>
      simp only [reduceCtorEq, false_iff]
      exact fun hk => h (hk n (Nat.lt_succ_self n))

/-- `n` cells from `base` on are free, and none of them is cell 0. -/
structure Gap (a : Arena) (base n : Nat) : Prop where
  base_pos : 0 < base
  le_size : base + n ≤ a.tags.size
  tag_eq_zero : ∀ x, base ≤ x → x < base + n → tag a.tags x = 0

theorem search?_eq_some {tags : Array Nat} {n fuel start base : Nat}
    (h : search? tags n fuel start = some base) :
    start ≤ base ∧ base + n ≤ tags.size ∧ ∀ k < n, tag tags (base + k) = 0 := by
  induction fuel generalizing start with
  | zero => exact absurd h nofun
  | succ fuel ih =>
    rw [search?] at h
    split at h
    case isFalse => exact absurd h nofun
    case isTrue hfit =>
      split at h
      case h_1 hfree =>
        obtain rfl := Option.some.inj h
        exact ⟨Nat.le_refl _, hfit, lastTaken?_eq_none_iff.mp hfree⟩
      case h_2 taken htaken =>
        obtain ⟨hle, hrest⟩ := ih h
        exact ⟨by omega, hrest⟩

theorem firstFit?_gap {a : Arena} {n base : Nat} (h : firstFit? a.tags n = some base) :
    a.Gap base n := by
  obtain ⟨hpos, hle, hfree⟩ := search?_eq_some h
  refine ⟨hpos, hle, fun x hbase hx => ?_⟩
  simpa [Nat.add_sub_cancel' hbase] using hfree (x - base) (by omega)

/-! ## Blocks taken and given back -/

@[simp] theorem size_fill {α : Type} (xs : Array α) (base stop : Nat) (value : α) :
    (fill xs base stop value).size = xs.size := by
  simp [fill]

theorem getD_fill {α : Type} {xs : Array α} {base stop : Nat} (h : stop ≤ xs.size) (value d : α)
    (x : Nat) :
    (fill xs base stop value)[x]?.getD d =
      if base ≤ x ∧ x < stop then value else xs[x]?.getD d := by
  rw [fill, Array.getElem?_mapIdx]
  cases hx : xs[x]? with
  | some y => rfl
  | none =>
    have hout : xs.size ≤ x := Array.getElem?_eq_none_iff.mp hx
    rw [if_neg (by omega)]
    rfl

/-- The arena with 0 in `n` cells from `base` on, and a tag on each of them. -/
def retag (a : Arena) (base n value : Nat) : Arena :=
  ⟨fill a.cells base (base + n) 0, fill a.tags base (base + n) value⟩

@[simp] theorem size_cells_retag (a : Arena) (base n value : Nat) :
    (a.retag base n value).cells.size = a.cells.size := size_fill ..

@[simp] theorem size_tags_retag (a : Arena) (base n value : Nat) :
    (a.retag base n value).tags.size = a.tags.size := size_fill ..

theorem tag_retag {a : Arena} {base n : Nat} (h : base + n ≤ a.tags.size) (value x : Nat) :
    tag (a.retag base n value).tags x =
      if base ≤ x ∧ x < base + n then value else tag a.tags x :=
  getD_fill h value 0 x

theorem cell_retag {a : Arena} {base n : Nat} (h : base + n ≤ a.cells.size) (value x : Nat) :
    (a.retag base n value).cell x = if base ≤ x ∧ x < base + n then 0 else a.cell x :=
  getD_fill h 0 0 x

/-- Arenas of one size with the same cells and tags are the same. -/
theorem ext_of_cell_tag {a b : Arena} (hcells : a.cells.size = b.cells.size)
    (htags : a.tags.size = b.tags.size) (hcell : ∀ x, a.cell x = b.cell x)
    (htag : ∀ x, tag a.tags x = tag b.tags x) : a = b := by
  obtain ⟨cells, tags⟩ := a
  obtain ⟨cells', tags'⟩ := b
  congr 1
  · refine Array.ext hcells fun x hx hx' => ?_
    simpa [cell, hx, hx'] using hcell x
  · refine Array.ext htags fun x hx hx' => ?_
    simpa [tag, hx, hx'] using htag x

/-! ## Granted and refused requests -/

theorem address_eq_ok_iff {a : Arena} {pointer : Float} {x : Nat} :
    a.address pointer = .ok x ↔ natural? pointer = some x ∧ 0 < x ∧ x < a.size := by
  unfold address
  rcases natural? pointer with _ | _ | n
  · simp
  · simp only [reduceCtorEq, Option.some.injEq, false_iff]
    omega
  · by_cases hn : n + 1 < a.size
    · simp only [if_pos hn, Except.ok.injEq, Option.some.injEq]
      omega
    · simp only [if_neg hn, reduceCtorEq, Option.some.injEq, false_iff]
      omega

theorem address_eq_error {a : Arena} {pointer : Float} {e : Refusal}
    (h : a.address pointer = .error e) : e = .null ∨ e = .violation := by
  unfold address at h
  split at h
  · exact .inl (Except.error.inj h).symm
  · split at h
    · exact absurd h nofun
    · exact .inr (Except.error.inj h).symm
  · exact .inr (Except.error.inj h).symm

theorem free_of_address {a : Arena} {pointer : Float} {x : Nat} (h : a.address pointer = .ok x) :
    a.free pointer =
      if tag a.tags x = 0 then .error .doubleFree
      else if tag a.tags x ≠ x then .error .violation
      else .ok (a.retag x (runLength a.tags x (tag a.tags x)) 0) := by
  unfold free
  rw [h]
  rfl

theorem free_of_address_error {a : Arena} {pointer : Float} {e : Refusal}
    (h : a.address pointer = .error e) : a.free pointer = .error e := by
  unfold free
  rw [h]
  rfl

theorem allocated_eq_ok_iff {a : Arena} {pointer : Float} {x : Nat} :
    a.allocated pointer = .ok x ↔ a.address pointer = .ok x ∧ tag a.tags x ≠ 0 := by
  unfold allocated
  cases h : a.address pointer with
  | error e => exact ⟨nofun, fun h => absurd h.1 nofun⟩
  | ok n =>
    show (if tag a.tags n = 0 then .error .unallocated else .ok n : Except Refusal Nat) = .ok x ↔ _
    by_cases hn : tag a.tags n = 0
    · simp only [hn, if_true, reduceCtorEq, Except.ok.injEq, false_iff]
      rintro ⟨rfl, hx⟩
      exact hx hn
    · simp only [hn, if_false, Except.ok.injEq]
      exact ⟨fun h => ⟨h, h ▸ hn⟩, fun h => h.1⟩

theorem allocate_ok {a b : Arena} {length : Float} {base : Nat}
    (h : a.allocate length = .ok (base, b)) :
    ∃ n, wholePart? length = some n ∧ 0 < n ∧ a.Gap base n ∧ b = a.retag base n base := by
  unfold allocate at h
  split at h
  case h_1 => exact absurd h nofun
  case h_2 => exact absurd h nofun
  case h_3 n hzero hn =>
    split at h
    case isTrue => exact absurd h nofun
    case isFalse =>
      split at h
      case h_1 => exact absurd h nofun
      case h_2 found hfit =>
        obtain ⟨rfl, rfl⟩ := Prod.mk.inj (Except.ok.inj h)
        exact ⟨n, hn, Nat.pos_of_ne_zero hzero, firstFit?_gap hfit, rfl⟩

theorem free_ok {a b : Arena} {pointer : Float} (h : a.free pointer = .ok b) :
    ∃ base, a.address pointer = .ok base ∧ tag a.tags base = base ∧
      b = a.retag base (runLength a.tags base base) 0 := by
  cases hx : a.address pointer with
  | error e => exact absurd ((free_of_address_error hx).symm.trans h) nofun
  | ok base =>
    rw [free_of_address hx] at h
    split at h
    case isTrue => exact absurd h nofun
    case isFalse =>
      split at h
      case isTrue => exact absurd h nofun
      case isFalse hown =>
        have hown : tag a.tags base = base := not_not.mp hown
        refine ⟨base, rfl, hown, ?_⟩
        rw [hown] at h
        exact (Except.ok.inj h).symm

theorem store_ok {a b : Arena} {pointer value : Float} (h : a.store pointer value = .ok b) :
    ∃ x, a.allocated pointer = .ok x ∧ b = { a with cells := a.cells.setIfInBounds x value } := by
  unfold store at h
  cases hx : a.allocated pointer with
  | error e => rw [hx] at h; exact absurd h nofun
  | ok x => rw [hx] at h; exact ⟨x, rfl, (Except.ok.inj h).symm⟩

theorem load_ok {a : Arena} {pointer value : Float} (h : a.load pointer = .ok value) :
    ∃ x, a.allocated pointer = .ok x ∧ value = a.cell x := by
  unfold load at h
  cases hx : a.allocated pointer with
  | error e => rw [hx] at h; exact absurd h nofun
  | ok x => rw [hx] at h; exact ⟨x, rfl, (Except.ok.inj h).symm⟩

theorem cell_setIfInBounds {a : Arena} {x : Nat} (hx : x < a.cells.size) (value : Float) (y : Nat) :
    ({ a with cells := a.cells.setIfInBounds x value } : Arena).cell y =
      if x = y then value else a.cell y := by
  unfold cell
  rw [Array.getElem?_setIfInBounds, if_pos hx]
  split <;> rfl

/-! ## The invariant -/

theorem tag_new (size x : Nat) : tag (Arena.new size).tags x = 0 := by
  simp only [tag, Arena.new, Array.getElem?_replicate]
  split <;> rfl

/-- Tags form runs: a tag is the address where its run starts, and what is free holds 0. -/
structure WellTagged (a : Arena) : Prop where
  size_tags : a.tags.size = a.cells.size
  tag_le : ∀ x, tag a.tags x ≤ x
  run : ∀ x y, tag a.tags x ≠ 0 → tag a.tags x ≤ y → y ≤ x → tag a.tags y = tag a.tags x
  cell_eq_zero : ∀ x, tag a.tags x = 0 → a.cell x = 0

namespace WellTagged

variable {a b : Arena}

theorem tag_tag (h : a.WellTagged) (x : Nat) (hx : tag a.tags x ≠ 0) :
    tag a.tags (tag a.tags x) = tag a.tags x :=
  h.run x _ hx (Nat.le_refl _) (h.tag_le x)

/-- The cells with the tag of a block are those of the run that starts at its base. -/
theorem tag_eq_iff (h : a.WellTagged) {base : Nat} (hpos : base ≠ 0) (x : Nat) :
    tag a.tags x = base ↔ base ≤ x ∧ x < base + runLength a.tags base base := by
  constructor
  · intro hx
    have hle : base ≤ x := hx ▸ h.tag_le x
    refine ⟨hle, Nat.lt_of_not_le fun hend => ?_⟩
    have hrun := h.run x (base + runLength a.tags base base) (hx ▸ hpos) (by omega) hend
    exact tag_runLength_ne hpos (hrun.trans hx)
  · rintro ⟨hle, hlt⟩
    have hk : x - base < runLength a.tags base base := by omega
    simpa [Nat.add_sub_cancel' hle] using tag_of_lt_runLength hk

theorem lt_size (h : a.WellTagged) {x : Nat} (hx : tag a.tags x ≠ 0) : x < a.cells.size :=
  h.size_tags ▸ lt_size_of_tag hx

/-- A taken cell can be addressed. -/
theorem address_eq (h : a.WellTagged) {pointer : Float} {x : Nat} (hx : natural? pointer = some x)
    (htag : tag a.tags x ≠ 0) : a.address pointer = .ok x := by
  have hpos : 0 < x := Nat.lt_of_lt_of_le (Nat.pos_of_ne_zero htag) (h.tag_le x)
  exact address_eq_ok_iff.mpr ⟨hx, hpos, h.lt_size htag⟩

theorem new (size : Nat) : (Arena.new size).WellTagged := by
  refine ⟨by simp [Arena.new], fun x => ?_, fun x _ hx => absurd (tag_new size x) hx, fun x _ => ?_⟩
  · rw [tag_new]
    exact Nat.zero_le x
  · simp only [cell, Arena.new, Array.getElem?_replicate]
    split <;> rfl

/-- Clearing an arena makes it a new one. -/
theorem clear_eq (h : a.WellTagged) : a.clear = Arena.new a.cells.size := by
  simp only [clear, Arena.new, h.size_tags]

theorem take (h : a.WellTagged) {base n : Nat} (hgap : a.Gap base n) :
    (a.retag base n base).WellTagged := by
  have htag := tag_retag hgap.le_size base
  refine ⟨by simp [h.size_tags], fun x => ?_, fun x y hx hxy hyx => ?_, fun x hx => ?_⟩
  · rw [htag]
    split
    case isTrue hin => exact hin.1
    case isFalse => exact h.tag_le x
  · rw [htag] at hx hxy ⊢
    rw [htag]
    by_cases hin : base ≤ x ∧ x < base + n
    · rw [if_pos hin] at hxy ⊢
      rw [if_pos ⟨hxy, by omega⟩]
    · rw [if_neg hin] at hx hxy ⊢
      -- A run of the old arena has no free cell, so it does not reach into the gap.
      have hrun : tag a.tags y = tag a.tags x := h.run x y hx hxy hyx
      have hout : ¬ (base ≤ y ∧ y < base + n) := fun hy =>
        hx (hrun.symm.trans (hgap.tag_eq_zero y hy.1 hy.2))
      rw [if_neg hout, hrun]
  · rw [cell_retag (h.size_tags ▸ hgap.le_size)]
    rw [htag] at hx
    split
    case isTrue => rfl
    case isFalse hout => exact h.cell_eq_zero x (by rwa [if_neg hout] at hx)

/-- After a block is given back its tag is gone, and no other tag has changed. -/
theorem tag_give (h : a.WellTagged) {base : Nat} (hpos : base ≠ 0) (hbase : tag a.tags base = base)
    (x : Nat) : tag (a.retag base (runLength a.tags base base) 0).tags x =
      if tag a.tags x = base then 0 else tag a.tags x := by
  rw [tag_retag (add_runLength_le hpos hbase), if_congr (h.tag_eq_iff hpos x).symm rfl rfl]

theorem cell_give (h : a.WellTagged) {base : Nat} (hpos : base ≠ 0) (hbase : tag a.tags base = base)
    (x : Nat) : (a.retag base (runLength a.tags base base) 0).cell x =
      if tag a.tags x = base then 0 else a.cell x := by
  rw [cell_retag (h.size_tags ▸ add_runLength_le hpos hbase),
    if_congr (h.tag_eq_iff hpos x).symm rfl rfl]

theorem give (h : a.WellTagged) {base : Nat} (hpos : base ≠ 0) (hbase : tag a.tags base = base) :
    (a.retag base (runLength a.tags base base) 0).WellTagged := by
  have htag := h.tag_give hpos hbase
  refine ⟨by simp [h.size_tags], fun x => ?_, fun x y hx hxy hyx => ?_, fun x hx => ?_⟩
  · rw [htag]
    split
    case isTrue => exact Nat.zero_le x
    case isFalse => exact h.tag_le x
  · rw [htag] at hx hxy ⊢
    rw [htag]
    by_cases hx' : tag a.tags x = base
    · exact absurd (if_pos hx') hx
    · rw [if_neg hx'] at hx hxy ⊢
      rw [h.run x y hx hxy hyx, if_neg hx']
  · rw [h.cell_give hpos hbase]
    rw [htag] at hx
    split
    case isTrue => rfl
    case isFalse hout => exact h.cell_eq_zero x (by rwa [if_neg hout] at hx)

theorem write (h : a.WellTagged) {x : Nat} (hx : tag a.tags x ≠ 0) (value : Float) :
    ({ a with cells := a.cells.setIfInBounds x value } : Arena).WellTagged := by
  refine ⟨by simp [h.size_tags], h.tag_le, h.run, fun y hy => ?_⟩
  rw [cell_setIfInBounds (h.lt_size hx), if_neg fun (hxy : x = y) => hx (hxy ▸ hy)]
  exact h.cell_eq_zero y hy

end WellTagged

/-! ## Sequences of requests -/

inductive Request where
  | allocate (length : Float)
  | free (pointer : Float)
  | store (pointer value : Float)
  | load (pointer : Float)
  | clear

/-- What a granted request gives back. -/
inductive Reply where
  | base (address : Nat)
  | value (x : Float)
  | done

/-- What a request gives and the arena it leaves, or why it is refused. -/
def answer (a : Arena) : Request → Except Refusal (Reply × Arena)
  | .allocate length => (a.allocate length).map fun (base, b) => (.base base, b)
  | .free pointer => (a.free pointer).map fun b => (.done, b)
  | .store pointer value => (a.store pointer value).map fun b => (.done, b)
  | .load pointer => (a.load pointer).map fun x => (.value x, a)
  | .clear => .ok (.done, a.clear)

/-- An arena with the requests made of it and their replies, the latest first. -/
structure Ledger where
  arena : Arena
  entries : List (Request × Except Refusal Reply)

/-- A request is made. One that is refused leaves the arena as it is. -/
def Ledger.record (l : Ledger) (r : Request) : Ledger :=
  match l.arena.answer r with
  | .ok (reply, b) => ⟨b, (r, .ok reply) :: l.entries⟩
  | .error e => ⟨l.arena, (r, .error e) :: l.entries⟩

/-- A new arena after a sequence of requests. -/
def Ledger.of (size : Nat) (requests : List Request) : Ledger :=
  requests.foldl Ledger.record ⟨Arena.new size, []⟩

/-- What making a request can do to a ledger: refuse it, or grant it in the one way there is. -/
inductive Recorded (l : Ledger) : Request → Ledger → Prop where
  | refused {r : Request} {e : Refusal} (h : l.arena.answer r = .error e) :
    Recorded l r ⟨l.arena, (r, .error e) :: l.entries⟩
  | taken {length : Float} {n base : Nat} (hn : wholePart? length = some n)
    (hgap : l.arena.Gap base n) :
    Recorded l (.allocate length)
      ⟨l.arena.retag base n base, (.allocate length, .ok (.base base)) :: l.entries⟩
  | given {pointer : Float} {base : Nat} (haddress : l.arena.address pointer = .ok base)
    (hbase : tag l.arena.tags base = base) :
    Recorded l (.free pointer)
      ⟨l.arena.retag base (runLength l.arena.tags base base) 0, (.free pointer, .ok .done) :: l.entries⟩
  | written {pointer value : Float} {x : Nat} (hx : l.arena.allocated pointer = .ok x) :
    Recorded l (.store pointer value)
      ⟨{ l.arena with cells := l.arena.cells.setIfInBounds x value },
        (.store pointer value, .ok .done) :: l.entries⟩
  | read {pointer : Float} {x : Nat} (hx : l.arena.allocated pointer = .ok x) :
    Recorded l (.load pointer)
      ⟨l.arena, (.load pointer, .ok (.value (l.arena.cell x))) :: l.entries⟩
  | cleared : Recorded l .clear ⟨l.arena.clear, (.clear, .ok .done) :: l.entries⟩

theorem Ledger.record_of_error {l : Ledger} {r : Request} {e : Refusal}
    (h : l.arena.answer r = .error e) : l.record r = ⟨l.arena, (r, .error e) :: l.entries⟩ := by
  unfold record
  rw [h]

theorem Ledger.record_of_ok {l : Ledger} {r : Request} {reply : Reply} {b : Arena}
    (h : l.arena.answer r = .ok (reply, b)) : l.record r = ⟨b, (r, .ok reply) :: l.entries⟩ := by
  unfold record
  rw [h]

theorem map_eq_ok {α β : Type} {x : Except Refusal α} {f : α → β} {y : β} (h : x.map f = .ok y) :
    ∃ z, x = .ok z ∧ f z = y := by
  cases x with
  | error e => exact absurd h nofun
  | ok z => exact ⟨z, rfl, Except.ok.inj h⟩

theorem Ledger.recorded (l : Ledger) (r : Request) : Recorded l r (l.record r) := by
  rcases hr : l.arena.answer r with e | ⟨reply, b⟩
  · rw [record_of_error hr]
    exact .refused hr
  · rw [record_of_ok hr]
    cases r with
    | allocate length =>
      obtain ⟨⟨base, b⟩, h, heq⟩ := map_eq_ok hr
      obtain ⟨rfl, rfl⟩ := Prod.mk.inj heq
      obtain ⟨n, hn, -, hgap, rfl⟩ := allocate_ok h
      exact .taken hn hgap
    | free pointer =>
      obtain ⟨b, h, heq⟩ := map_eq_ok hr
      obtain ⟨rfl, rfl⟩ := Prod.mk.inj heq
      obtain ⟨base, haddress, hbase, rfl⟩ := free_ok h
      exact .given haddress hbase
    | store pointer value =>
      obtain ⟨b, h, heq⟩ := map_eq_ok hr
      obtain ⟨rfl, rfl⟩ := Prod.mk.inj heq
      obtain ⟨x, hx, rfl⟩ := store_ok h
      exact .written hx
    | load pointer =>
      obtain ⟨value, h, heq⟩ := map_eq_ok hr
      obtain ⟨rfl, rfl⟩ := Prod.mk.inj heq
      obtain ⟨x, hx, rfl⟩ := load_ok h
      exact .read hx
    | clear =>
      obtain ⟨rfl, rfl⟩ := Prod.mk.inj (Except.ok.inj hr)
      exact .cleared

/-- What holds of a new arena and is kept by every request holds after every sequence of them. -/
theorem Ledger.of_induction {P : Ledger → Prop} {size : Nat} (hnew : P ⟨Arena.new size, []⟩)
    (hkept : ∀ l r l', P l → Recorded l r l' → P l') (requests : List Request) :
    P (of size requests) := by
  unfold of
  generalize (⟨Arena.new size, []⟩ : Ledger) = l at hnew
  induction requests generalizing l with
  | nil => exact hnew
  | cons r requests ih => exact ih _ (hkept l r _ hnew (l.recorded r))

theorem Recorded.wellTagged {l l' : Ledger} {r : Request} (h : Recorded l r l')
    (hl : l.arena.WellTagged) : l'.arena.WellTagged := by
  cases h with
  | refused => exact hl
  | taken hn hgap => exact hl.take hgap
  | given haddress hbase =>
    exact hl.give (Nat.ne_of_gt (address_eq_ok_iff.mp haddress).2.1) hbase
  | written hx => exact hl.write (allocated_eq_ok_iff.mp hx).2 _
  | read => exact hl
  | cleared =>
    show l.arena.clear.WellTagged
    rw [hl.clear_eq]
    exact .new _

theorem Recorded.size_cells {l l' : Ledger} {r : Request} (h : Recorded l r l') :
    l'.arena.cells.size = l.arena.cells.size := by
  cases h with
  | taken | given => exact size_cells_retag ..
  | written => exact Array.size_setIfInBounds
  | cleared => exact Array.size_replicate
  | refused | read => rfl

namespace Ledger

variable (size : Nat) (requests : List Request)

theorem wellTagged : (of size requests).arena.WellTagged :=
  of_induction (P := fun l => l.arena.WellTagged) (.new size) (fun _ _ _ hl h => h.wellTagged hl)
    requests

theorem size_cells : (of size requests).arena.cells.size = size :=
  of_induction (P := fun l => l.arena.cells.size = size) Array.size_replicate
    (fun _ _ _ hl h => h.size_cells.trans hl) requests

theorem size_tags : (of size requests).arena.tags.size = size :=
  (wellTagged size requests).size_tags.trans (size_cells size requests)

end Ledger

theorem getElem?_tags_iff {tags : Array Nat} {x t : Nat} (ht : t ≠ 0) :
    tags[x]? = some t ↔ tag tags x = t := by
  unfold tag
  cases tags[x]? with
  | none => simpa using ht.symm
  | some => simp

/-- After every sequence of requests, granted or refused, an arena has as many cells and tags as at the
start. Cell 0 is free. A tag that is not 0 is an address from 1 on, at most that of its cell, and every
cell in between carries it, the cell at that address included; so the cells of a block are one interval,
whatever stands beside it. A free cell holds 0. -/
theorem Ledger.tags_form_runs (size : Nat) (requests : List Request) :
    let a := (of size requests).arena
    a.cells.size = size ∧ a.tags.size = size ∧
      (0 < size → a.tags[0]? = some 0) ∧
      (∀ x t, a.tags[x]? = some t → t ≠ 0 →
        1 ≤ t ∧ t ≤ x ∧ a.tags[t]? = some t ∧ ∀ y, t ≤ y → y ≤ x → a.tags[y]? = some t) ∧
      (∀ t, t ≠ 0 → a.tags[t]? = some t →
        ∃ stop, t < stop ∧ stop ≤ size ∧ ∀ x, a.tags[x]? = some t ↔ t ≤ x ∧ x < stop) ∧
      ∀ x : Nat, a.tags[x]? = some 0 → a.cells[x]? = some 0 := by
  intro a
  have hwell : a.WellTagged := wellTagged size requests
  have hcells : a.cells.size = size := size_cells size requests
  have htags : a.tags.size = size := size_tags size requests
  refine ⟨hcells, htags, fun hsize => ?_, fun x t hx ht => ?_, fun t ht hbase => ?_, fun x hx => ?_⟩
  · have hzero : tag a.tags 0 = 0 := Nat.le_zero.mp (hwell.tag_le 0)
    simpa [tag, htags, hsize] using hzero
  · obtain rfl := (getElem?_tags_iff ht).mp hx
    refine ⟨Nat.pos_of_ne_zero ht, hwell.tag_le x, ?_, fun y hty hyx => ?_⟩
    · exact (getElem?_tags_iff ht).mpr (hwell.tag_tag x ht)
    · exact (getElem?_tags_iff ht).mpr (hwell.run x y ht hty hyx)
  · have hbase : tag a.tags t = t := (getElem?_tags_iff ht).mp hbase
    refine ⟨t + runLength a.tags t t, ?_, htags ▸ add_runLength_le ht hbase, fun x => ?_⟩
    · exact ((hwell.tag_eq_iff ht t).mp hbase).2
    · exact (getElem?_tags_iff ht).trans (hwell.tag_eq_iff ht x)
  · have hfree : tag a.tags x = 0 := by simp [tag, hx]
    have hlt : x < a.cells.size := by
      rw [← hwell.size_tags]
      exact (Array.getElem?_eq_some_iff.mp hx).1
    simpa [cell, hlt] using hwell.cell_eq_zero x hfree

/-- Two blocks side by side, a value in the second one, a block that does not fit, and one that was given
back twice. -/
def neighbours : List Request :=
  [.allocate 2, .allocate 3.5, .store 4 7, .allocate 9, .allocate 1, .free 6, .free 6]

theorem Ledger.tags_form_runs_neighbours :
    let a := (of 8 neighbours).arena
    a.tags = #[0, 1, 1, 3, 3, 3, 0, 0] ∧
      (a.tags[5]? = some 3 ∧ 1 ≤ 3 ∧ 3 ≤ 5 ∧ a.tags[3]? = some 3 ∧
        ∀ y, 3 ≤ y → y ≤ 5 → a.tags[y]? = some 3) ∧
      (∃ stop, 1 < stop ∧ stop ≤ 8 ∧ ∀ x, a.tags[x]? = some 1 ↔ 1 ≤ x ∧ x < stop) ∧
      a.cells[6]? = some 0 := by
  intro a
  have htags : a.tags = #[0, 1, 1, 3, 3, 3, 0, 0] := by decide +kernel
  have hlast : a.tags[5]? = some 3 := by rw [htags]; rfl
  have hbase : a.tags[1]? = some 1 := by rw [htags]; rfl
  have hfree : a.tags[6]? = some 0 := by rw [htags]; rfl
  obtain ⟨-, -, -, hrun, hblock, hzero⟩ := tags_form_runs 8 neighbours
  exact ⟨htags, ⟨hlast, hrun 5 3 hlast (by decide)⟩, hblock 1 (by decide) hbase, hzero 6 hfree⟩

end VirtualProcessor.Arena
