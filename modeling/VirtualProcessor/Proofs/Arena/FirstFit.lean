import VirtualProcessor.Proofs.Arena.Blocks
import VirtualProcessor.Proofs.Number.Order

/-!
# The place of a new block

The search for a new block jumps over several bases at a time: behind the last taken cell of the window it looks at.
`Searches` is its loop with no bound on the turns, and `tryEach?` tries every base in order. No base that fits is
jumped over (`Searches.le_of_gap`), and the loop ends after at most as many turns as there are cells
(`searches_search?`). So

* `firstFit?_eq_some_iff`, `firstFit?_eq_none_iff`: what is found is the least base that fits, if there is one;
* `tryEach?_eq_firstFit?`: trying every base in order finds the same;
* `first_fit_exact`: hence where `allocate` puts a block, and when it runs out of memory.
-/

namespace VirtualProcessor.Arena

open Number

/-! ## The loop -/

/-- What the search comes to from a base on. -/
inductive Searches (tags : Array Nat) (n : Nat) : (base : Nat) → Option Nat → Prop
  | found {base : Nat} (hfit : base + n ≤ tags.size) (hfree : lastTaken? tags base n = none) :
    Searches tags n base (some base)
  | skipped {base taken : Nat} {result : Option Nat} (hfit : base + n ≤ tags.size)
    (htaken : lastTaken? tags base n = some taken) (hrest : Searches tags n (base + taken + 1) result) :
    Searches tags n base result
  | ended {base : Nat} (hfit : tags.size < base + n) : Searches tags n base none

theorem lastTaken?_eq_some {tags : Array Nat} {base n taken : Nat} (h : lastTaken? tags base n = some taken) :
    taken < n ∧ tag tags (base + taken) ≠ 0 := by
  induction n with
  | zero => cases h
  | succ n ih =>
    rw [lastTaken?] at h
    split at h
    case isTrue =>
      obtain ⟨hlt, htag⟩ := ih h
      exact ⟨Nat.lt_succ_of_lt hlt, htag⟩
    case isFalse htag =>
      obtain rfl := Option.some.inj h
      exact ⟨Nat.lt_succ_self _, htag⟩

/-- The bound on the turns is never reached: every turn moves the base on, and there are no more bases than cells. -/
theorem searches_search? {tags : Array Nat} {n fuel base : Nat} (h : tags.size < base + fuel) :
    Searches tags n base (search? tags n fuel base) := by
  induction fuel generalizing base with
  | zero => exact .ended (Nat.lt_add_right n h)
  | succ fuel ih =>
    rw [search?]
    split
    case isFalse hfit => exact .ended (Nat.lt_of_not_le hfit)
    case isTrue hfit =>
      split
      case h_1 hfree => exact .found hfit hfree
      case h_2 taken htaken => exact .skipped hfit htaken (ih (by omega))

theorem searches_firstFit? (tags : Array Nat) (n : Nat) : Searches tags n 1 (firstFit? tags n) :=
  searches_search? (Nat.lt_one_add_iff.mpr (Nat.le_refl _))

namespace Searches

variable {a : Arena} {n base : Nat} {result : Option Nat}

theorem unique {tags : Array Nat} {result' : Option Nat} (h : Searches tags n base result)
    (h' : Searches tags n base result') : result = result' := by
  induction h with
  | found hfit hfree =>
    cases h' with
    | found => rfl
    | skipped _ htaken => cases hfree.symm.trans htaken
    | ended hend => exact absurd hfit (Nat.not_le.mpr hend)
  | skipped hfit htaken _ ih =>
    cases h' with
    | found _ hfree => cases hfree.symm.trans htaken
    | skipped _ htaken' hrest =>
      cases htaken.symm.trans htaken'
      exact ih hrest
    | ended hend => exact absurd hfit (Nat.not_le.mpr hend)
  | ended hend =>
    cases h' with
    | found hfit => exact absurd hfit (Nat.not_le.mpr hend)
    | skipped hfit => exact absurd hfit (Nat.not_le.mpr hend)
    | ended => rfl

/-- No base that fits is jumped over. -/
theorem le_of_gap (h : Searches a.tags n base result) {b : Nat} (hb : base ≤ b) (hgap : a.Gap b n) :
    ∃ found, result = some found ∧ found ≤ b := by
  induction h with
  | found => exact ⟨_, rfl, hb⟩
  | @skipped base taken _ _ htaken _ ih =>
    obtain ⟨hlt, htag⟩ := lastTaken?_eq_some htaken
    -- A window that starts at or before the taken cell reaches over it.
    have hbehind : base + taken < b := by
      by_contra hnot
      exact htag (hgap.tag_eq_zero (base + taken) (by omega) (by omega))
    exact ih hbehind
  | ended hend =>
    have := hgap.le_size
    omega

end Searches

/-! ## The least base -/

section

variable {a : Arena} {n base : Nat}

theorem firstFit?_eq_none_iff : firstFit? a.tags n = none ↔ ∀ b, ¬ a.Gap b n := by
  have hsearch := searches_firstFit? a.tags n
  constructor
  · intro h b hgap
    obtain ⟨found, hfound, -⟩ := hsearch.le_of_gap hgap.base_pos hgap
    cases h.symm.trans hfound
  · intro h
    cases hfound : firstFit? a.tags n with
    | none => rfl
    | some found => exact absurd (firstFit?_gap hfound) (h found)

theorem firstFit?_eq_some_iff : firstFit? a.tags n = some base ↔ IsLeast {b | a.Gap b n} base := by
  have hsearch := searches_firstFit? a.tags n
  constructor
  · intro h
    refine ⟨firstFit?_gap h, fun b hgap => ?_⟩
    obtain ⟨found, hfound, hle⟩ := hsearch.le_of_gap (show 1 ≤ b from hgap.base_pos) hgap
    cases h.symm.trans hfound
    exact hle
  · rintro ⟨hgap, hleast⟩
    obtain ⟨found, hfound, hle⟩ := hsearch.le_of_gap (show 1 ≤ base from hgap.base_pos) hgap
    rw [hfound, Nat.le_antisymm hle (hleast (firstFit?_gap hfound))]

end

/-! ## Trying every base -/

/-- Whether `n` cells from a base on are free. -/
def allFree (tags : Array Nat) (base n : Nat) : Bool := (List.range' base n).all fun x => tag tags x == 0

/-- The first base at which `n` cells are free, all bases being tried in order. -/
def tryEach? (tags : Array Nat) (n : Nat) : Option Nat :=
  (List.range' 1 (tags.size - n)).find? fun base => allFree tags base n

theorem gap_iff {a : Arena} {n base : Nat} :
    a.Gap base n ↔ base ∈ List.range' 1 (a.tags.size - n) ∧ allFree a.tags base n = true := by
  simp only [allFree, List.all_eq_true, List.mem_range'_1, beq_iff_eq]
  constructor
  · rintro ⟨hpos, hle, htag⟩
    exact ⟨by omega, fun x hx => htag x hx.1 hx.2⟩
  · rintro ⟨hbase, htag⟩
    exact ⟨by omega, by omega, fun x hle hlt => htag x ⟨hle, hlt⟩⟩

theorem tryEach?_eq_firstFit? (a : Arena) (n : Nat) : tryEach? a.tags n = firstFit? a.tags n := by
  cases h : tryEach? a.tags n with
  | none =>
    rw [eq_comm, firstFit?_eq_none_iff]
    intro b hgap
    obtain ⟨hmem, hfree⟩ := gap_iff.mp hgap
    exact List.find?_eq_none.mp h b hmem hfree
  | some base =>
    rw [eq_comm, firstFit?_eq_some_iff]
    obtain ⟨hfree, hmem, hbefore⟩ := List.find?_range'_eq_some.mp h
    refine ⟨gap_iff.mpr ⟨hmem, hfree⟩, fun b hgap => ?_⟩
    by_contra hlt
    have hnot := hbefore b hgap.base_pos (Nat.lt_of_not_le hlt)
    rw [(gap_iff.mp hgap).2] at hnot
    cases hnot

/-! ## Allocation -/

theorem allocate_of_wholePart? {a : Arena} {length : Float} {n : Nat} (h : wholePart? length = some n)
    (hpos : 0 < n) (hlt : n < a.tags.size) :
    a.allocate length =
      match firstFit? a.tags n with
      | none => .error .outOfMemory
      | some base => .ok (base, a.retag base n base) := by
  obtain ⟨n, rfl⟩ := Nat.exists_eq_succ_of_ne_zero (Nat.ne_of_gt hpos)
  unfold allocate
  rw [h]
  exact if_neg (Nat.not_le.mpr hlt)

/-- Blocks are put where they fit first. Of a length from 1 up to but not including the number of cells only the whole
part `k` counts. After any requests, `allocate` gives the least address from 1 on at which `k` cells that exist are
all free, and runs out of memory if and only if there is none. The loop that looks for it, which jumps behind the
last taken cell of its window, comes to an end, and finds what trying every address in order finds. -/
theorem Ledger.first_fit_exact {size : Nat} (hsize : size < UInt32.size) (requests : List Request) {length : Float}
    (hlow : 1 ≤ length) (hhigh : length < Float.ofNat size) :
    let a := (of size requests).arena
    ∃ k, Float.ofNat k ≤ length ∧ length < Float.ofNat (k + 1) ∧ 1 ≤ k ∧ k < size ∧ a.tags.size = size ∧
      (∀ base, (a.allocate length).map Prod.fst = .ok base ↔ IsLeast {base | a.Gap base k} base) ∧
      (a.allocate length = .error .outOfMemory ↔ ∀ base, ¬ a.Gap base k) ∧
      ∀ result, Searches a.tags k 1 result ↔ result = tryEach? a.tags k := by
  intro a
  have htags : a.tags.size = size := size_tags size requests
  have hbound : size < 2 ^ 53 := Nat.lt_trans hsize (by decide)
  obtain ⟨k, hk⟩ := exists_wholePart? (by decide) (show Float.ofNat 1 ≤ length from hlow) hbound (le_of_lt hhigh)
  have hpos : 1 ≤ k := (ofNat_le_iff hk (by decide)).mp hlow
  have hlt : k < size := (lt_ofNat_iff hk hbound).mp hhigh
  have hallocate := allocate_of_wholePart? hk hpos (htags ▸ hlt)
  refine ⟨k, (ofNat_le_iff hk (by omega)).mpr (Nat.le_refl k), (lt_ofNat_iff hk (by omega)).mpr (Nat.lt_succ_self k),
    hpos, hlt, htags, fun base => ?_, ?_, fun result => ?_⟩
  · rw [← firstFit?_eq_some_iff, hallocate]
    cases firstFit? a.tags k <;> simp [Except.map]
  · rw [← firstFit?_eq_none_iff, hallocate]
    cases firstFit? a.tags k <;> simp
  · rw [tryEach?_eq_firstFit? a k]
    constructor
    · exact fun h => h.unique (searches_firstFit? a.tags k)
    · rintro rfl
      exact searches_firstFit? a.tags k

/-- Two cells fit only behind both neighbours, three nowhere. -/
theorem Ledger.first_fit_exact_neighbours :
    let a := (of 8 neighbours).arena
    a.tags = #[0, 1, 1, 3, 3, 3, 0, 0] ∧
      ((1 : Float) ≤ 2.5 ∧ 2.5 < Float.ofNat 8 ∧ (a.allocate 2.5).map Prod.fst = .ok 6 ∧
        IsLeast {base | a.Gap base 2} 6 ∧ Searches a.tags 2 1 (some 6)) ∧
      (1 : Float) ≤ 3.5 ∧ 3.5 < Float.ofNat 8 ∧ a.allocate 3.5 = .error .outOfMemory ∧ ∀ base, ¬ a.Gap base 3 := by
  intro a
  have htags : a.tags = #[0, 1, 1, 3, 3, 3, 0, 0] := by decide +kernel
  have htwo : (1 : Float) ≤ 2.5 ∧ 2.5 < Float.ofNat 8 := by decide +kernel
  have hthree : (1 : Float) ≤ 3.5 ∧ 3.5 < Float.ofNat 8 := by decide +kernel
  have hbase : (a.allocate 2.5).map Prod.fst = .ok 6 := by decide +kernel
  refine ⟨htags, ⟨htwo.1, htwo.2, hbase, ?_⟩, hthree.1, hthree.2, ?_⟩
  · obtain ⟨k, hle, hlt, -, hk, -, hleast, -, hsearch⟩ :=
      first_fit_exact (show 8 < UInt32.size by decide) neighbours htwo.1 htwo.2
    obtain rfl : k = 2 := by
      interval_cases k <;> revert hle hlt <;> decide +kernel
    exact ⟨(hleast 6).mp hbase, (hsearch _).mpr (by decide +kernel)⟩
  · obtain ⟨k, hle, hlt, -, hk, -, -, hnone, -⟩ :=
      first_fit_exact (show 8 < UInt32.size by decide) neighbours hthree.1 hthree.2
    obtain rfl : k = 3 := by
      interval_cases k <;> revert hle hlt <;> decide +kernel
    have hfull : ∀ base, ¬ a.Gap base 3 := firstFit?_eq_none_iff.mp (by decide +kernel)
    exact ⟨hnone.mpr hfull, hfull⟩

end VirtualProcessor.Arena
