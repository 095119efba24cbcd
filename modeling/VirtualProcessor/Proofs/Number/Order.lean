import VirtualProcessor.Proofs.Number.Word

/-!
# Whole parts and the order of numbers

Lengths, addresses and the targets of jumps are numbers of which only the whole part counts, and whether one is in
its range is judged by the order of numbers. Numbers are compared by their exponents, and by their significands
only where those are the same. This is the order of what they stand for, because a significand has 53 bits unless
its exponent is the least (`exact_bounds`). So

* `ofNat_le_iff`, `lt_ofNat_iff`, `le_of_le_ofNat`: a natural number is compared with a number as with its whole
  part;
* `exists_wholePart?`: a number between two natural numbers has a whole part;
* `toWord_eq`: the word of a number is its whole part.
-/

namespace VirtualProcessor.Number

open Float.Model Float.Model.UnpackedFloat

/-! ## Exponents and significands -/

/-- A significand has 53 bits, and fewer only under the least exponent. The greatest exponent is 971. -/
theorem exact_bounds {x : Float} {s : Sign} {m : Nat} {e : Int} {h : 0 < m} (hx : exact x = .finite s m e h) :
    m < 2 ^ 53 ∧ (e = -1074 ∨ -1074 < e ∧ e ≤ 971 ∧ 2 ^ 52 ≤ m) := by
  unfold exact Float.Model.unpack UnpackedFloat.unpack at hx
  simp only at hx
  have hbias : (Format.exponentBias .binary64 : Int) = 1023 := rfl
  have hlt : (@unpackMantissa .binary64 x.toModel.toBits.toBitVec).toNat < 2 ^ 52 := BitVec.isLt _
  split at hx
  · split at hx <;> cases hx
  · rename_i hgreatest
    split at hx
    · rename_i hleast
      split at hx
      · cases hx
      · obtain ⟨-, rfl, rfl⟩ := UnpackedFloat.finite.inj hx
        rw [hleast, hbias]
        exact ⟨Nat.lt_trans hlt (by decide), .inl rfl⟩
    · rename_i hleast
      obtain ⟨-, rfl, rfl⟩ := UnpackedFloat.finite.inj hx
      have hpos : (@unpackExponent .binary64 x.toModel.toBits.toBitVec).toNat ≠ 0 :=
        fun h => hleast (BitVec.eq_of_toNat_eq h)
      have hmax : (@unpackExponent .binary64 x.toModel.toBits.toBitVec).toNat ≠ 2047 :=
        fun h => hgreatest (BitVec.eq_of_toNat_eq h)
      have hword : (@unpackExponent .binary64 x.toModel.toBits.toBitVec).toNat < 2 ^ 11 := BitVec.isLt _
      have hfull : (1#1 ++ @unpackMantissa .binary64 x.toModel.toBits.toBitVec).toNat = 2 ^ 52 + _ := toNat_leading _
      rw [hfull, hbias]
      omega

/-- The whole part of a number with an exponent that is not positive. -/
theorem splitPoint_neg (m k : Nat) : (splitPoint m (-(k : Int))).1 = m / 2 ^ k := by
  unfold splitPoint
  split
  · obtain rfl : k = 0 := by omega
    simp
  · rw [Int.neg_neg, Int.toNat_natCast, Nat.pow_eq]

section

variable {m n k : Nat} {e : Int}

/-- Under a lesser exponent than that of a natural number the whole part is less. -/
theorem splitPoint_lt (hm : m < 2 ^ 53) (hn : 0 < n) (hk : n.log2 + k = 52) (he : e < -(k : Int)) :
    (splitPoint m e).1 < n := by
  obtain ⟨j, rfl⟩ : ∃ j : Nat, e = -((k + 1 + j : Nat) : Int) := ⟨(-e - k - 1).toNat, by omega⟩
  have hlow : 2 ^ n.log2 ≤ n := Nat.log2_self_le (Nat.ne_of_gt hn)
  rw [splitPoint_neg, Nat.div_lt_iff_lt_mul (Nat.two_pow_pos _)]
  calc m < 2 ^ 53 := hm
    _ ≤ 2 ^ (n.log2 + (k + 1 + j)) := Nat.pow_le_pow_right (by decide) (by omega)
    _ = 2 ^ n.log2 * 2 ^ (k + 1 + j) := Nat.pow_add ..
    _ ≤ n * 2 ^ (k + 1 + j) := Nat.mul_le_mul_right _ hlow

/-- Under a greater exponent the whole part is greater. -/
theorem lt_splitPoint (hm : 2 ^ 52 ≤ m) (hk : n.log2 + k = 52) (he : -(k : Int) < e) :
    n < (splitPoint m e).1 := by
  have hhigh : n < 2 ^ (n.log2 + 1) := Nat.lt_log2_self
  unfold splitPoint
  split
  · calc n < 2 ^ (n.log2 + 1) := hhigh
      _ ≤ 2 ^ (52 + e.toNat) := Nat.pow_le_pow_right (by decide) (by omega)
      _ = 2 ^ 52 * 2 ^ e.toNat := Nat.pow_add ..
      _ ≤ m * 2 ^ e.toNat := Nat.mul_le_mul_right _ hm
  · refine Nat.lt_of_lt_of_le hhigh ?_
    rw [Nat.pow_eq, Nat.le_div_iff_mul_le (Nat.two_pow_pos _), ← Nat.pow_add]
    exact Nat.le_trans (Nat.pow_le_pow_right (by decide) (by omega)) hm

end

/-! ## The order -/

theorem le_iff_compare {x y : Float} : x ≤ y ↔ ((exact x).compare (exact y)).any (·.isLE) = true := by
  show decide (UnpackedFloat.le (exact x) (exact y) = true) = true ↔ _
  rw [decide_eq_true_iff]
  rfl

theorem lt_iff_compare {x y : Float} : x < y ↔ (exact x).compare (exact y) = some .lt := by
  show decide (UnpackedFloat.lt (exact x) (exact y) = true) = true ↔ _
  rw [decide_eq_true_iff]
  exact beq_iff_eq

theorem le_of_lt {x y : Float} (h : x < y) : x ≤ y := by
  rw [le_iff_compare, lt_iff_compare.mp h]
  rfl

theorem compare_swap (a b : Exact) : b.compare a = (a.compare b).map Ordering.swap := by
  cases a with
  | notANumber => cases b <;> rfl
  | infinity s => cases s <;> cases b with
    | infinity s' => cases s' <;> rfl
    | _ => rfl
  | zero s => cases b with
    | infinity s' => cases s' <;> rfl
    | finite s' => cases s' <;> rfl
    | _ => rfl
  | finite s m e h => cases b with
    | infinity s' => cases s <;> cases s' <;> rfl
    | zero => cases s <;> rfl
    | notANumber => cases s <;> rfl
    | finite s' m' e' h' =>
      have hswap : (compare e' e).then (compare m' m) = ((compare e e').then (compare m m')).swap := by
        rw [Ordering.swap_then, Int.compare_swap, Nat.compare_swap]
      cases s <;> cases s'
      · exact congrArg (fun o => some (Ordering.swap o)) hswap
      · rfl
      · rfl
      · exact congrArg some hswap

theorem wholePart?_eq_some {x : Float} {k : Nat} (h : wholePart? x = some k) :
    (∃ s, exact x = .zero s ∧ k = 0) ∨
      ∃ m e hm, exact x = .finite .positive m e hm ∧ k = (splitPoint m e).1 := by
  unfold wholePart? at h
  split at h
  · rename_i s hx
    exact .inl ⟨s, hx, (Option.some.inj h).symm⟩
  · rename_i m e hm hx
    exact .inr ⟨m, e, hm, hx, (Option.some.inj h).symm⟩
  · cases h

section

variable {x : Float} {k n : Nat}

/-- How a natural number compares with a number that has a whole part. -/
theorem compare_ofNat (hx : wholePart? x = some k) (hn : n < 2 ^ 53) :
    ∃ o, (exact (Float.ofNat n)).compare (exact x) = some o ∧ (o = .gt ↔ k < n) ∧ (n < k → o = .lt) := by
  obtain rfl | ⟨hpos, j, hj⟩ := eq_zero_or_scaled hn
  · have hzero : exact (Float.ofNat 0) = .zero .positive := rfl
    rw [hzero]
    obtain ⟨s, hs, rfl⟩ | ⟨m, e, hm, he, rfl⟩ := wholePart?_eq_some hx
    · rw [hs]
      exact ⟨.eq, rfl, by decide, by decide⟩
    · rw [he]
      exact ⟨.lt, rfl, iff_of_false nofun (Nat.not_lt_zero _), fun _ => rfl⟩
  rw [exact_ofNat hpos hj (Nat.mul_pos hpos (Nat.two_pow_pos j))]
  obtain ⟨s, hs, rfl⟩ | ⟨m, e, hm, he, rfl⟩ := wholePart?_eq_some hx
  · rw [hs]
    exact ⟨.gt, rfl, iff_of_true rfl hpos, fun h => absurd h (Nat.not_lt_zero n)⟩
  · rw [he]
    obtain ⟨hhigh, hlow⟩ := exact_bounds he
    refine ⟨(compare (-(j : Int)) e).then (compare (n * 2 ^ j) m), rfl, ?_⟩
    rcases Int.lt_trichotomy e (-(j : Int)) with hlt | rfl | hgt
    · have hless := splitPoint_lt hhigh hpos hj hlt
      rw [Int.compare_eq_gt.mpr hlt]
      exact ⟨iff_of_true rfl hless, fun h => absurd h (Nat.lt_asymm hless)⟩
    · have hscale (a : Nat) : a ≤ m / 2 ^ j ↔ a * 2 ^ j ≤ m := Nat.le_div_iff_mul_le (Nat.two_pow_pos j)
      rw [Int.compare_eq_eq.mpr rfl, splitPoint_neg, Ordering.eq_then, Nat.compare_eq_gt, Nat.compare_eq_lt]
      refine ⟨lt_iff_lt_of_le_iff_le (hscale n).symm, fun h => ?_⟩
      have hnext := (hscale (n + 1)).mp h
      rw [Nat.succ_mul] at hnext
      exact Nat.lt_of_lt_of_le (Nat.lt_add_of_pos_right (Nat.two_pow_pos j)) hnext
    · have hmore : n < (splitPoint m e).1 := lt_splitPoint (by omega) hj hgt
      rw [Int.compare_eq_lt.mpr hgt]
      exact ⟨iff_of_false nofun (Nat.lt_asymm hmore), fun _ => rfl⟩

/-- A natural number is at most a number if it is at most its whole part. -/
theorem ofNat_le_iff (hx : wholePart? x = some k) (hn : n < 2 ^ 53) : Float.ofNat n ≤ x ↔ n ≤ k := by
  obtain ⟨o, ho, hgt, -⟩ := compare_ofNat hx hn
  rw [le_iff_compare, ho, ← Nat.not_lt, ← hgt]
  cases o <;> decide

/-- A number is less than a natural number if its whole part is. -/
theorem lt_ofNat_iff (hx : wholePart? x = some k) (hn : n < 2 ^ 53) : x < Float.ofNat n ↔ k < n := by
  obtain ⟨o, ho, hgt, -⟩ := compare_ofNat hx hn
  rw [lt_iff_compare, compare_swap, ho, ← hgt]
  cases o <;> decide

theorem le_of_le_ofNat (hx : wholePart? x = some k) (hn : n < 2 ^ 53) (h : x ≤ Float.ofNat n) : k ≤ n := by
  obtain ⟨o, ho, -, hlt⟩ := compare_ofNat hx hn
  rw [le_iff_compare, compare_swap, ho] at h
  refine Nat.le_of_not_lt fun hmore => ?_
  rw [hlt hmore] at h
  cases h

theorem exact_ofNat_cases (hn : n < 2 ^ 53) :
    exact (Float.ofNat n) = .zero .positive ∨ ∃ m e hm, exact (Float.ofNat n) = .finite .positive m e hm := by
  obtain rfl | ⟨hpos, j, hj⟩ := eq_zero_or_scaled hn
  · exact .inl rfl
  · exact .inr ⟨_, _, _, exact_ofNat hpos hj (Nat.mul_pos hpos (Nat.two_pow_pos j))⟩

/-- A number between two natural numbers has a whole part. -/
theorem exists_wholePart? {l : Nat} (hl : l < 2 ^ 53) (hlow : Float.ofNat l ≤ x) (hn : n < 2 ^ 53)
    (hhigh : x ≤ Float.ofNat n) : ∃ k, wholePart? x = some k := by
  rw [le_iff_compare] at hlow hhigh
  unfold wholePart?
  cases hx : exact x with
  | zero s => exact ⟨0, rfl⟩
  | notANumber =>
    rw [hx] at hhigh
    cases hhigh
  | finite s m e hm =>
    cases s with
    | positive => exact ⟨_, rfl⟩
    | negative =>
      rw [hx] at hlow
      obtain h | ⟨_, _, _, h⟩ := exact_ofNat_cases hl
      all_goals
        rw [h] at hlow
        cases hlow
  | infinity s =>
    cases s with
    | negative =>
      rw [hx] at hlow
      obtain h | ⟨_, _, _, h⟩ := exact_ofNat_cases hl
      all_goals
        rw [h] at hlow
        cases hlow
    | positive =>
      rw [hx] at hhigh
      obtain h | ⟨_, _, _, h⟩ := exact_ofNat_cases hn
      all_goals
        rw [h] at hhigh
        cases hhigh

end

/-! ## Words -/

theorem mantissa_shiftRight (em : ExtendedMantissa) (k : Nat) : (em >>> k).mantissa = em.mantissa / 2 ^ k := by
  show (Nat.repeat ExtendedMantissa.shiftRightOne k em).mantissa = _
  induction k with
  | zero => simp [Nat.repeat]
  | succ k ih =>
    rw [Nat.repeat]
    show (Nat.repeat ExtendedMantissa.shiftRightOne k em).mantissa / 2 = _
    rw [ih, Nat.div_div_eq_div_mul, Nat.pow_succ]

theorem roundToInt_positive (m : Nat) (e : Int) : roundToInt .positive m e = (splitPoint m e).1 := by
  unfold splitPoint
  split
  · have hkeep : (e - 0).toNat = e.toNat := by rw [Int.sub_zero]
    have hshift : (0 - (e - (e.toNat : Int))).toNat = 0 := by omega
    simp only [roundToInt, decreaseExponent, hkeep, shiftToExponent, hshift, mantissa_shiftRight]
    show ((m <<< e.toNat / 2 ^ 0 : Nat) : Int) = _
    rw [Nat.pow_zero, Nat.div_one, Nat.shiftLeft_eq, Nat.pow_eq]
  · have hkeep : (e - 0).toNat = 0 := by omega
    have hshift : (0 - (e - ((0 : Nat) : Int))).toNat = (-e).toNat := by omega
    simp only [roundToInt, decreaseExponent, hkeep, shiftToExponent, hshift, mantissa_shiftRight]
    rfl

/-- The word of a number is its whole part. -/
theorem toWord_eq {x : Float} {k : Nat} (hx : wholePart? x = some k) (hk : k < UInt32.size) :
    toWord x = UInt32.ofNat k := by
  show UInt32.ofNatClamp ((exact x).toInt 0 (UInt32.size - 1)).toNat = _
  obtain ⟨s, hs, rfl⟩ | ⟨m, e, hm, he, rfl⟩ := wholePart?_eq_some hx
  · rw [hs]
    rfl
  · rw [he]
    show UInt32.ofNatClamp (roundToInt .positive m e).toNat = _
    rw [roundToInt_positive, Int.toNat_natCast, UInt32.ofNatClamp, dif_pos hk, UInt32.ofNatLT_eq_ofNat]

end VirtualProcessor.Number
