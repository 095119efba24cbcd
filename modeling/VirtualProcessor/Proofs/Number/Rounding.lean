import VirtualProcessor.Proofs.Number.Nearest

/-!
# Rounding gives the nearest number

Numbers are rounded from a significand of any length, with what is known of the rest behind it: nothing, less than a
half, a half, more than a half (`Lies`). Dropping a binary place keeps this knowledge (`Lies.half`), so after all
places that are too many have been dropped it tells which of the two neighbours is nearer. Hence products and
quotients that are rounded once are nearest to what they stand for (`isNearest_roundWithAccuracy`).
-/

namespace VirtualProcessor.Number

open Float.Model Float.Model.UnpackedFloat

/-! ## What is behind a significand -/

/-- A significand, and a half if the rest behind it is at least that. -/
def floorOf (em : ExtendedMantissa) : ℚ := em.mantissa + em.roundBit.toNat / 2

/-- Where `t` lies behind a significand, by the two bits for the rest: whether it is at least a half, and whether
something else is left, which is less than a half. -/
def Lies (t : ℚ) (em : ExtendedMantissa) : Prop :=
  if em.stickyBit then floorOf em < t ∧ t < floorOf em + 1 / 2 else t = floorOf em

section

variable {t : ℚ} {m : Nat} {roundBit : Bool}

theorem lies_of_eq (h : t = m + roundBit.toNat / 2) : Lies t ⟨m, roundBit, false⟩ := h

theorem lies_of_lt (hlow : m + roundBit.toNat / 2 < t) (hhigh : t < m + roundBit.toNat / 2 + 1 / 2) :
    Lies t ⟨m, roundBit, true⟩ := ⟨hlow, hhigh⟩

end

theorem lies_exact (m : Nat) : Lies m (.ofMantissaAndAccuracy m .exact) := lies_of_eq (by norm_num)

/-- The remainder of a division tells where the quotient lies. -/
theorem lies_quotient (m : Nat) {n : Nat} (hn : 0 < n) :
    Lies (m / n) (.ofMantissaAndAccuracy (m / n) (accuracyOfFraction (m % n) n)) := by
  have hpos : (0 : ℚ) < n := by exact_mod_cast hn
  have hsplit : (m : ℚ) / n = (m / n : Nat) + (m % n : Nat) / n := by
    field_simp
    exact_mod_cast (Nat.div_add_mod m n).symm
  have hfraction : ((m % n : Nat) : ℚ) / n < 1 := by
    rw [div_lt_one hpos]
    exact_mod_cast Nat.mod_lt m hn
  rw [hsplit]
  unfold accuracyOfFraction
  split
  · rename_i hzero
    exact lies_of_eq (by norm_num [hzero])
  · rename_i hrest
    have hrest : (0 : ℚ) < (m % n : Nat) / n := by
      have : 0 < m % n := Nat.pos_of_ne_zero hrest
      positivity
    cases hc : compare (2 * (m % n)) n with
    | lt =>
      have hhalf : ((m % n : Nat) : ℚ) / n < 1 / 2 := by
        rw [div_lt_div_iff₀ hpos (by norm_num)]
        exact_mod_cast (by have := Nat.compare_eq_lt.mp hc; omega)
      refine lies_of_lt ?_ ?_ <;> norm_num [Bool.toNat_false] <;> linarith
    | eq =>
      have hhalf : ((m % n : Nat) : ℚ) / n = 1 / 2 := by
        rw [div_eq_div_iff hpos.ne' (by norm_num)]
        exact_mod_cast (by have := Nat.compare_eq_eq.mp hc; omega)
      exact lies_of_eq (by norm_num [hhalf])
    | gt =>
      have hhalf : 1 / 2 < ((m % n : Nat) : ℚ) / n := by
        rw [div_lt_div_iff₀ (by norm_num) hpos]
        exact_mod_cast (by have := Nat.compare_eq_gt.mp hc; omega)
      refine lies_of_lt ?_ ?_ <;> norm_num [Bool.toNat_true] <;> linarith

namespace Lies

variable {t : ℚ} {em : ExtendedMantissa} (h : Lies t em)

include h

theorem bounds : (em.mantissa : ℚ) ≤ t ∧ t < em.mantissa + 1 := by
  obtain ⟨m, roundBit, stickyBit⟩ := em
  have hround : (0 : ℚ) ≤ roundBit.toNat / 2 ∧ (roundBit.toNat : ℚ) / 2 ≤ 1 / 2 := by
    cases roundBit <;> norm_num
  show (m : ℚ) ≤ t ∧ t < m + 1
  cases stickyBit with
  | false =>
    have h : t = m + roundBit.toNat / 2 := h
    constructor <;> linarith
  | true =>
    obtain ⟨hlow, hhigh⟩ : m + roundBit.toNat / 2 < t ∧ t < m + roundBit.toNat / 2 + 1 / 2 := h
    constructor <;> linarith

theorem roundsTo : RoundsTo t em.roundedMantissa := by
  obtain ⟨m, roundBit, stickyBit⟩ := em
  cases stickyBit with
  | false =>
    have h : t = m + roundBit.toNat / 2 := h
    cases roundBit with
    | false =>
      show RoundsTo t m
      rw [h]
      exact ⟨by norm_num, fun h => by norm_num at h⟩
    | true =>
      -- A half goes to the even one of the two neighbours.
      show RoundsTo t (m + m % 2)
      refine ⟨?_, fun _ => by omega⟩
      rw [h, abs_le]
      rcases Nat.mod_two_eq_zero_or_one m with hm | hm
      · rw [hm]
        constructor <;> norm_num
      · rw [hm]
        constructor <;> norm_num
  | true =>
    obtain ⟨hlow, hhigh⟩ : m + roundBit.toNat / 2 < t ∧ t < m + roundBit.toNat / 2 + 1 / 2 := h
    have hnear : |((m + roundBit.toNat : Nat) : ℚ) - t| < 1 / 2 := by
      push_cast
      rw [abs_lt]
      cases roundBit <;> norm_num at * <;> constructor <;> linarith
    have hrounded : (⟨m, roundBit, true⟩ : ExtendedMantissa).roundedMantissa = m + roundBit.toNat := by
      cases roundBit <;> rfl
    rw [hrounded]
    exact ⟨hnear.le, fun heq => absurd heq hnear.ne⟩

/-- What is known of the rest is kept when a binary place is dropped. -/
theorem half : Lies (t / 2) em.shiftRightOne := by
  obtain ⟨m, roundBit, stickyBit⟩ := em
  have hfloor : ((m / 2 : Nat) : ℚ) + (m % 2 != 0).toNat / 2 = m / 2 := by
    have hsplit : (m : ℚ) = 2 * (m / 2 : Nat) + (m % 2 : Nat) := by exact_mod_cast (Nat.div_add_mod m 2).symm
    have hbit : (m % 2 != 0).toNat = m % 2 := by
      rcases Nat.mod_two_eq_zero_or_one m with hm | hm <;> rw [hm] <;> rfl
    rw [hbit]
    linarith
  obtain ⟨hlow, hhigh⟩ := h.bounds
  simp only at hlow hhigh
  cases hrest : (roundBit || stickyBit) with
  | false =>
    obtain ⟨rfl, rfl⟩ := Bool.or_eq_false_iff.mp hrest
    have h : t = m + (0 : Nat) / 2 := h
    refine lies_of_eq ?_
    rw [hfloor, h]
    norm_num
  | true =>
    have hlow : (m : ℚ) < t := by
      cases roundBit <;> cases stickyBit <;> norm_num [Lies, floorOf] at h hrest <;> linarith
    show Lies (t / 2) ⟨m / 2, m % 2 != 0, roundBit || stickyBit⟩
    rw [hrest]
    refine lies_of_lt ?_ ?_ <;> rw [hfloor] <;> linarith

theorem shift (k : Nat) : Lies (t / 2 ^ k) (em >>> k) := by
  show Lies _ (Nat.repeat ExtendedMantissa.shiftRightOne k em)
  induction k with
  | zero =>
    rw [pow_zero, div_one]
    exact h
  | succ k ih =>
    rw [pow_succ, ← div_div]
    exact ih.half

end Lies

/-! ## Rounding -/

theorem mantissa_ofMantissaAndAccuracy (m : Nat) (accuracy : Accuracy) :
    (ExtendedMantissa.ofMantissaAndAccuracy m accuracy).mantissa = m := by
  rcases accuracy with _ | _ | _ | _ <;> rfl

/-- A rounded significand is short enough or has become too long by one place. -/
theorem shiftToTargetExponent_carried {r : Nat} {e : Int} (hr : r ≤ 2 ^ 53) (he : -1074 ≤ e) :
    (shiftToTargetExponent .binary64 r e .exact).1.mantissa = (carried r e).1 ∧
      (shiftToTargetExponent .binary64 r e .exact).2 = (carried r e).2 := by
  unfold carried
  split
  · rename_i hlt
    have hlog : r.log2 ≤ 52 := by
      rcases Nat.eq_zero_or_pos r with rfl | hpos
      · decide
      · have := (Nat.log2_lt (Nat.ne_of_gt hpos)).mpr hlt
        omega
    have hshift : (Format.targetExponent .binary64 (totalExponent r e) - e).toNat = 0 := by
      simp only [totalExponent, Format.targetExponent, Format.mantissaBits, Format.minExponent]
      omega
    simp only [shiftToTargetExponent, shiftToExponent, hshift, mantissa_shiftRight, mantissa_ofMantissaAndAccuracy]
    exact ⟨Nat.div_one r, Int.add_zero e⟩
  · obtain rfl : r = 2 ^ 53 := by omega
    have hlog : (2 ^ 53).log2 = 53 := by decide
    have hshift : (Format.targetExponent .binary64 (totalExponent (2 ^ 53) e) - e).toNat = 1 := by
      simp only [totalExponent, hlog, Format.targetExponent, Format.mantissaBits, Format.minExponent]
      omega
    simp only [shiftToTargetExponent, shiftToExponent, hshift, mantissa_shiftRight, mantissa_ofMantissaAndAccuracy]
    exact ⟨rfl, rfl⟩

/-- Beyond the greatest exponent a number becomes infinite when it is put into its 64 bits. -/
theorem exact_pack_overflow (s : Sign) {m : Nat} {e : Int} (hpos : 0 < m) (he : 971 < e) :
    exact (.ofModel (.pack (.finite s m e hpos))) = .infinity s := by
  have hpack : UnpackedFloat.pack .binary64 (.finite s m e hpos) = UnpackedFloat.pack .binary64 (.infinity s) := by
    simp only [UnpackedFloat.pack]
    rw [if_pos]
    simp only [Format.exponentBias]
    omega
  show UnpackedFloat.unpack .binary64 (UnpackedFloat.pack .binary64 (.finite s m e hpos)) = _
  rw [hpack]
  cases s <;> rfl

/-- How many places are dropped, and what that leaves: 53 bits, or fewer under the least exponent. -/
theorem dropped_places {m : Nat} {e : Int} (h : e ≤ -1074 ∨ 2 ^ 52 ≤ m) :
    ∃ k : Nat, (Format.targetExponent .binary64 (totalExponent m e) - e).toNat = k ∧ -1074 ≤ e + k ∧
      m / 2 ^ k < 2 ^ 53 ∧ (e + k = -1074 ∨ 2 ^ 52 ≤ m / 2 ^ k) := by
  have hlog : e ≤ -1074 ∨ 52 ≤ m.log2 := h.imp id fun hm => (Nat.le_log2 (by omega)).mpr hm
  have htarget : Format.targetExponent .binary64 (totalExponent m e) = max (m.log2 + 1 + e - 53) (-1074) := rfl
  obtain ⟨k, hk⟩ : ∃ k, (Format.targetExponent .binary64 (totalExponent m e) - e).toNat = k := ⟨_, rfl⟩
  refine ⟨k, hk, by omega, ?_, ?_⟩
  · rw [Nat.div_lt_iff_lt_mul (Nat.two_pow_pos k), ← Nat.pow_add]
    exact Nat.lt_of_lt_of_le Nat.lt_log2_self (Nat.pow_le_pow_right (by decide) (by omega))
  · refine or_iff_not_imp_left.mpr fun he => ?_
    have hfull : m.log2 = 52 + k := by omega
    have hpos : m ≠ 0 := by
      rintro rfl
      rw [Nat.log2_zero] at hfull
      omega
    rw [Nat.le_div_iff_mul_le (Nat.two_pow_pos k), ← Nat.pow_add, ← hfull]
    exact Nat.log2_self_le hpos

/-- A rounded significand with its exponent is kept when it is put into the 64 bits of a number, or becomes infinite. -/
theorem exact_pack_carried (s : Sign) {r : Nat} {e : Int} (hleast : -1074 ≤ e) (hfull : e = -1074 ∨ 2 ^ 52 ≤ r) :
    exact (.ofModel (.pack (if h : (carried r e).1 = 0 then .zero s
      else .finite s (carried r e).1 (carried r e).2 (Nat.pos_of_ne_zero h)))) =
      ofParts s (carried r e).1 (carried r e).2 := by
  rcases lt_or_ge 971 (carried r e).2 with hover | hfinite
  · have hpos : (carried r e).1 ≠ 0 := by
      unfold carried at hover ⊢
      split at hover
      · rw [if_pos (by assumption)]
        simp only at hover ⊢
        omega
      · rw [if_neg (by assumption)]
        show 2 ^ 52 ≠ 0
        decide
    rw [dif_neg hpos, exact_pack_overflow s _ hover, ofParts, if_pos hover]
  · have hfits : Fits (carried r e).1 (carried r e).2 :=
      fits_carried hleast hfull ((le_carried r e).trans hfinite)
    have hparts : (if h : (carried r e).1 = 0 then .zero s
        else .finite s (carried r e).1 (carried r e).2 (Nat.pos_of_ne_zero h)) =
        ofParts s (carried r e).1 (carried r e).2 := by
      unfold ofParts
      rw [if_neg (not_lt.mpr hfinite)]
      rcases Nat.eq_zero_or_pos (carried r e).1 with hzero | hpos
      · rw [dif_pos hzero, dif_neg (by omega)]
      · rw [dif_neg (by omega), dif_pos hpos]
    rw [hparts, exact_pack_ofParts s hfits]

/-- Rounding gives the number nearest to `q` if the significand has enough places and it is known where `q` lies
behind it. -/
theorem isNearest_roundWithAccuracy (s : Sign) {m : Nat} {e : Int} {accuracy : Accuracy} {q : ℚ}
    (hq : Lies (q / 2 ^ e) (.ofMantissaAndAccuracy m accuracy)) (hm : e ≤ -1074 ∨ 2 ^ 52 ≤ m) :
    IsNearest s q (.ofModel (.pack (roundWithAccuracy .binary64 s m e accuracy))) := by
  obtain ⟨k, hk, hleast, hlt, hfull⟩ := dropped_places hm
  have hfirst : shiftToTargetExponent .binary64 m e accuracy =
      (ExtendedMantissa.ofMantissaAndAccuracy m accuracy >>> k, e + k) := by
    simp only [shiftToTargetExponent, shiftToExponent, hk]
  have hlies := hq.shift k
  rw [div_div, ← zpow_natCast, ← zpow_add₀ (by norm_num)] at hlies
  obtain ⟨hlow, hhigh⟩ := hlies.bounds
  rw [mantissa_shiftRight, mantissa_ofMantissaAndAccuracy] at hlow hhigh
  have hbound : q / 2 ^ (e + k) < 2 ^ 53 := lt_of_lt_of_le hhigh (by exact_mod_cast hlt)
  have hplaces : e + k = -1074 ∨ 2 ^ 52 ≤ q / 2 ^ (e + k) :=
    hfull.imp id fun h => le_trans (by exact_mod_cast h) hlow
  have hrounds := hlies.roundsTo
  have hr := hrounds.le_of_lt (n := 2 ^ 53) (by exact_mod_cast hbound)
  have hcarried := shiftToTargetExponent_carried hr hleast
  have hnearest := isNearest_of_grid (x := .ofModel (.pack (roundWithAccuracy .binary64 s m e accuracy))) (s := s) ?_
    hrounds hleast hplaces hbound
  · rwa [div_mul_cancel₀ _ (by positivity)] at hnearest
  · simp only [roundWithAccuracy, hfirst, hcarried.1, hcarried.2]
    exact exact_pack_carried s hleast (hplaces.imp id fun h => hrounds.le_of_le (by exact_mod_cast h))

end VirtualProcessor.Number
