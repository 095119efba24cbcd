import VirtualProcessor.Proofs.Number.Order

/-!
# Truncation respects the order of numbers

The signed integer of a number is what is left when its fraction is dropped, moved to the nearest end of the range if
it is outside. Numbers that are in order have whole parts in order (`splitPoint_mono`), whatever their exponents. With
the list of what numbers in order can be (`InOrder`) their integers are in order, too (`toSignedWide_mono`). Hence
bounds that are not in the wrong order leave an integer between them, unless one of them is not a number
(`isNaN_of_toSignedWide_lt`).
-/

namespace VirtualProcessor.Number

open Float.Model Float.Model.UnpackedFloat

/-! ## Whole parts -/

/-- The whole part of a number, with its exponent taken down to a lesser one. -/
theorem splitPoint_common (m : Nat) {e b : Int} (he : b ≤ e) (hb : b ≤ 0) :
    (splitPoint m e).1 = m * 2 ^ (e - b).toNat / 2 ^ (-b).toNat := by
  unfold splitPoint
  split
  · have hsplit : (e - b).toNat = e.toNat + (-b).toNat := by omega
    rw [hsplit, Nat.pow_add, ← Nat.mul_assoc, Nat.mul_div_cancel _ (Nat.two_pow_pos _), Nat.pow_eq]
  · have hsplit : (-b).toNat = (-e).toNat + (e - b).toNat := by omega
    rw [hsplit, Nat.pow_add, Nat.mul_div_mul_right _ _ (Nat.two_pow_pos _), Nat.pow_eq]

/-- Significands and exponents that are in order stand for whole parts that are. -/
theorem splitPoint_mono {m n : Nat} {e f : Int} (hm : m < 2 ^ 53) (hn : e < f → 2 ^ 52 ≤ n)
    (h : ((compare e f).then (compare m n)).isLE = true) : (splitPoint m e).1 ≤ (splitPoint n f).1 := by
  rcases Int.lt_trichotomy e f with hlt | rfl | hgt
  · have hup : (f - min e 0).toNat = (e - min e 0).toNat + 1 + (f - e - 1).toNat := by omega
    rw [splitPoint_common m (Int.min_le_left e 0) (Int.min_le_right e 0),
      splitPoint_common n (by omega) (Int.min_le_right e 0)]
    refine Nat.div_le_div_right ?_
    calc m * 2 ^ (e - min e 0).toNat ≤ 2 ^ 53 * 2 ^ (e - min e 0).toNat := Nat.mul_le_mul_right _ (Nat.le_of_lt hm)
      _ = 2 ^ 52 * 2 ^ ((e - min e 0).toNat + 1) := by rw [Nat.pow_succ 2 (e - min e 0).toNat]; omega
      _ ≤ 2 ^ 52 * 2 ^ (f - min e 0).toNat := Nat.mul_le_mul_left _ (Nat.pow_le_pow_right (by decide) (by omega))
      _ ≤ n * 2 ^ (f - min e 0).toNat := Nat.mul_le_mul_right _ (hn hlt)
  · have hle : m ≤ n := by
      rw [Int.compare_eq_eq.mpr rfl, Ordering.eq_then, Nat.isLE_compare] at h
      exact h
    rw [splitPoint_common m (Int.min_le_left e 0) (Int.min_le_right e 0),
      splitPoint_common n (Int.min_le_left e 0) (Int.min_le_right e 0)]
    exact Nat.div_le_div_right (Nat.mul_le_mul_right _ hle)
  · rw [Int.compare_eq_gt.mpr hgt] at h
    cases h

/-! ## Integers -/

theorem roundToInt_eq (s : Sign) (m : Nat) (e : Int) : roundToInt s m e = s.apply ((splitPoint m e).1 : Nat) := by
  rw [← roundToInt_positive]
  cases s <;> rfl

/-- An integer outside of the range is moved to the nearest end. -/
theorem toInt_ofIntClamp_eq (a : Int) :
    (Int64.ofIntClamp a).toInt = max Int64.minValue.toInt (min a Int64.maxValue.toInt) := by
  have hrange : Int64.minValue.toInt ≤ Int64.maxValue.toInt := by decide
  unfold Int64.ofIntClamp
  split
  · split
    · rw [Int64.toInt_ofIntLE]
      omega
    · omega
  · omega

/-- Signs, significands and exponents that are in order stand for integers that are. -/
theorem toInt_mono {x y : Float} {s t : Sign} {m n : Nat} {e f : Int} {hm : 0 < m} {hn : 0 < n}
    (hx : exact x = .finite s m e hm) (hy : exact y = .finite t n f hn) (h : x ≤ y) :
    roundToInt s m e ≤ roundToInt t n f := by
  rw [le_iff_compare, hx, hy] at h
  rw [roundToInt_eq, roundToInt_eq]
  have hboundx := exact_bounds hx
  have hboundy := exact_bounds hy
  cases s with
  | positive =>
    cases t with
    | positive => exact Int.ofNat_le.mpr (splitPoint_mono hboundx.1 (by omega) h)
    | negative => cases h
  | negative =>
    cases t with
    | positive =>
      show -((splitPoint m e).1 : Int) ≤ (splitPoint n f).1
      omega
    | negative =>
      have hswap : ((compare f e).then (compare n m)).isLE = true := by
        rw [← Int.compare_swap, ← Nat.compare_swap, ← Ordering.swap_then]
        exact h
      exact Int.neg_le_neg (Int.ofNat_le.mpr (splitPoint_mono hboundy.1 (by omega) hswap))

/-- What two numbers that are in order can be. -/
inductive InOrder : Exact → Exact → Prop
  | bottom (b : Exact) : InOrder (.infinity .negative) b
  | top (a : Exact) : InOrder a (.infinity .positive)
  | zeros (s t : Sign) : InOrder (.zero s) (.zero t)
  | positive (s : Sign) (n : Nat) (f : Int) (hn : 0 < n) : InOrder (.zero s) (.finite .positive n f hn)
  | negative (m : Nat) (e : Int) (hm : 0 < m) (t : Sign) : InOrder (.finite .negative m e hm) (.zero t)
  | finite (s t : Sign) (m n : Nat) (e f : Int) (hm : 0 < m) (hn : 0 < n) :
    InOrder (.finite s m e hm) (.finite t n f hn)

theorem inOrder_of_compare {a b : Exact} (h : (a.compare b).any Ordering.isLE = true) : InOrder a b := by
  cases a with
  | notANumber => cases h
  | infinity s =>
    cases s with
    | negative => exact .bottom b
    | positive =>
      cases b with
      | infinity t =>
        cases t with
        | positive => exact .top _
        | negative => cases h
      | _ => cases h
  | zero s =>
    cases b with
    | notANumber => cases h
    | infinity t =>
      cases t with
      | positive => exact .top _
      | negative => cases h
    | zero t => exact .zeros s t
    | finite t n f hn =>
      cases t with
      | positive => exact .positive s n f hn
      | negative => cases h
  | finite s m e hm =>
    cases b with
    | notANumber => cases s <;> cases h
    | infinity t =>
      cases t with
      | positive => exact .top _
      | negative => cases s <;> cases h
    | zero t =>
      cases s with
      | positive => cases h
      | negative => exact .negative m e hm t
    | finite t n f hn => exact .finite s t m n e f hm hn

theorem toSignedWide_of_exact {x : Float} {a : Exact} (h : exact x = a) :
    toSignedWide x = Int64.ofIntClamp (a.toInt Int64.minValue.toInt Int64.maxValue.toInt) := by
  subst h
  rfl

theorem toInt_ofIntClamp_mono {a b : Int} (h : a ≤ b) : (Int64.ofIntClamp a).toInt ≤ (Int64.ofIntClamp b).toInt := by
  rw [toInt_ofIntClamp_eq, toInt_ofIntClamp_eq]
  omega

/-- Numbers that are in order have integers that are. -/
theorem toSignedWide_mono {x y : Float} (h : x ≤ y) : (toSignedWide x).toInt ≤ (toSignedWide y).toInt := by
  have horder := inOrder_of_compare (le_iff_compare.mp h)
  generalize hx : exact x = a at horder
  generalize hy : exact y = b at horder
  rw [toSignedWide_of_exact hx, toSignedWide_of_exact hy]
  cases horder with
  | bottom b =>
    show (Int64.ofIntClamp Int64.minValue.toInt).toInt ≤ _
    rw [Int64.ofIntClamp_toInt]
    exact Int64.minValue_le_toInt _
  | top a =>
    show _ ≤ (Int64.ofIntClamp Int64.maxValue.toInt).toInt
    rw [Int64.ofIntClamp_toInt]
    exact Int64.toInt_le _
  | zeros s t => exact Int.le_refl _
  | positive s n f hn =>
    have hpos : 0 ≤ roundToInt .positive n f := by
      rw [roundToInt_eq]
      exact Int.natCast_nonneg _
    exact toInt_ofIntClamp_mono hpos
  | negative m e hm t =>
    have hneg : roundToInt .negative m e ≤ 0 := by
      rw [roundToInt_eq]
      exact Int.neg_nonpos_of_nonneg (Int.natCast_nonneg _)
    exact toInt_ofIntClamp_mono hneg
  | finite s t m n e f hm hn => exact toInt_ofIntClamp_mono (toInt_mono hx hy h)

theorem exists_compare {a b : Exact} (ha : a.isNaN = false) (hb : b.isNaN = false) : ∃ o, a.compare b = some o := by
  cases a with
  | notANumber => cases ha
  | infinity s => cases s <;> cases b with
    | notANumber => cases hb
    | _ => exact ⟨_, rfl⟩
  | zero s => cases b with
    | notANumber => cases hb
    | infinity t => cases t <;> exact ⟨_, rfl⟩
    | zero t => exact ⟨_, rfl⟩
    | finite t => cases t <;> exact ⟨_, rfl⟩
  | finite s => cases b with
    | notANumber => cases hb
    | infinity t => cases s <;> cases t <;> exact ⟨_, rfl⟩
    | zero t => cases s <;> exact ⟨_, rfl⟩
    | finite t => cases s <;> cases t <;> exact ⟨_, rfl⟩

/-- Numbers are in order, or in the opposite one, unless one of them is not a number. -/
theorem le_of_not_lt {x y : Float} (hx : x.isNaN = false) (hy : y.isNaN = false) (h : ¬ y < x) : x ≤ y := by
  obtain ⟨o, ho⟩ := exists_compare (a := exact y) (b := exact x) hy hx
  rw [lt_iff_compare, ho] at h
  rw [le_iff_compare, compare_swap, ho]
  cases o with
  | lt => exact absurd rfl h
  | eq => rfl
  | gt => rfl

theorem not_lt_of_le {x y : Float} (h : x ≤ y) : ¬ y < x := by
  rw [le_iff_compare] at h
  rw [lt_iff_compare, compare_swap]
  cases ho : (exact x).compare (exact y) with
  | none => exact Option.some_ne_none _ ∘ Eq.symm
  | some o =>
    rw [ho] at h
    cases o with
    | lt => decide
    | eq => decide
    | gt => cases h

/-- Bounds that are not in the wrong order leave an integer between them, unless one of them is not a number. -/
theorem isNaN_of_toSignedWide_lt {x y : Float} (h : ¬ y < x) (hlt : (toSignedWide y).toInt < (toSignedWide x).toInt) :
    x.isNaN = true ∨ y.isNaN = true := by
  cases hx : x.isNaN with
  | true => exact .inl rfl
  | false =>
    cases hy : y.isNaN with
    | true => exact .inr rfl
    | false => exact absurd (toSignedWide_mono (le_of_not_lt hx hy h)) (Int.not_le.mpr hlt)

end VirtualProcessor.Number
