import VirtualProcessor.Number.Decimal
import VirtualProcessor.Proofs.Number.Rounding

/-!
# Decimals as numbers

* `isNearest_toFloat`: a decimal is read as the number nearest to it. Short decimals are a product or a quotient of two
  natural numbers that are numbers; others are rounded from all their digits; and those that are far too small are 0;
* `toFloat_shortest`: the decimal that is chosen for a number is read back as that number.
-/

namespace VirtualProcessor.Number

open Float.Model Float.Model.UnpackedFloat

/-! ## Products and quotients -/

section

variable {m₁ m₂ : Nat} (h₁ : 0 < m₁) (e₁ : Int) (h₂ : 0 < m₂) (e₂ : Int)

include h₁ h₂ in
/-- The quotient has enough places. -/
theorem divCore_places :
    (divCore .binary64 m₁ e₁ m₂ e₂).2.1 ≤ -1074 ∨ 2 ^ 52 ≤ (divCore .binary64 m₁ e₁ m₂ e₂).1 := by
  have htarget : Format.targetExponent .binary64 (totalExponent m₁ e₁ - totalExponent m₂ e₂) =
      max ((m₁.log2 + 1 + e₁) - (m₂.log2 + 1 + e₂) - 53) (-1074) := rfl
  refine or_iff_not_imp_left.mpr fun hexponent => ?_
  simp only [divCore] at hexponent ⊢
  generalize hk : (e₁ - e₂ - min (e₁ - e₂)
    (Format.targetExponent .binary64 (totalExponent m₁ e₁ - totalExponent m₂ e₂))).toNat = k
  have hlog : 53 + m₂.log2 ≤ m₁.log2 + k := by omega
  rw [Nat.le_div_iff_mul_le h₂, Nat.shiftLeft_eq]
  calc 2 ^ 52 * m₂ ≤ 2 ^ 52 * 2 ^ (m₂.log2 + 1) := Nat.mul_le_mul_left _ Nat.lt_log2_self.le
    _ = 2 ^ (53 + m₂.log2) := by rw [← Nat.pow_add]; congr 1; omega
    _ ≤ 2 ^ (m₁.log2 + k) := Nat.pow_le_pow_right (by decide) hlog
    _ = 2 ^ m₁.log2 * 2 ^ k := Nat.pow_add ..
    _ ≤ m₁ * 2 ^ k := Nat.mul_le_mul_right _ (Nat.log2_self_le h₁.ne')

include h₂ in
theorem divCore_lies (m₁ : Nat) :
    Lies (m₁ * 2 ^ e₁ / (m₂ * 2 ^ e₂) / 2 ^ (divCore .binary64 m₁ e₁ m₂ e₂).2.1)
      (.ofMantissaAndAccuracy (divCore .binary64 m₁ e₁ m₂ e₂).1 (divCore .binary64 m₁ e₁ m₂ e₂).2.2) := by
  simp only [divCore]
  generalize hte : min (e₁ - e₂)
    (Format.targetExponent .binary64 (totalExponent m₁ e₁ - totalExponent m₂ e₂)) = te
  have hquotient := lies_quotient (m₁ <<< (e₁ - e₂ - te).toNat) h₂
  convert hquotient using 1
  have hsplit : (2 : ℚ) ^ e₁ = 2 ^ (e₁ - e₂ - te).toNat * 2 ^ e₂ * 2 ^ te := by
    rw [← zpow_natCast, ← zpow_add₀ (by norm_num), ← zpow_add₀ (by norm_num)]
    congr 1
    omega
  have hpos : (m₂ : ℚ) ≠ 0 := by exact_mod_cast h₂.ne'
  rw [hsplit, Nat.shiftLeft_eq]
  push_cast
  field_simp

/-- A quotient is the number nearest to what it stands for. -/
theorem isNearest_div (s₁ s₂ : Sign) : IsNearest (s₁ / s₂) (m₁ * 2 ^ e₁ / (m₂ * 2 ^ e₂))
    (.ofModel (.pack (.div .binary64 (.finite s₁ m₁ e₁ h₁) (.finite s₂ m₂ e₂ h₂)))) :=
  isNearest_roundWithAccuracy (s₁ / s₂) (divCore_lies e₁ h₂ e₂ m₁) (divCore_places h₁ e₁ h₂ e₂)

/-- A product is the number nearest to what it stands for, too, if it has enough places. -/
theorem isNearest_mul (s₁ s₂ : Sign) (h : e₁ + e₂ ≤ -1074 ∨ 2 ^ 52 ≤ m₁ * m₂) :
    IsNearest (s₁ * s₂) (m₁ * 2 ^ e₁ * (m₂ * 2 ^ e₂))
      (.ofModel (.pack (.mul .binary64 (.finite s₁ m₁ e₁ h₁) (.finite s₂ m₂ e₂ h₂)))) := by
  refine isNearest_roundWithAccuracy (s₁ * s₂) ?_ h
  convert lies_exact (m₁ * m₂) using 1
  rw [zpow_add₀ (by norm_num), Nat.cast_mul]
  field_simp

end

/-! ## Reading from all digits -/

theorem exponentRange : (2 : Int) ^ Format.binary64.exponentBits = 2048 := by decide

section

variable {n k : Nat}

theorem ofScientific_whole (hn : 0 < n) : Float.Model.ofScientific n 0 =
    .pack (.mul .binary64 (.finite .positive (n <<< 53) (-53) (Nat.shiftLeft_pos_iff.mpr hn))
      (.finite .positive (10 ^ 0) 0 (by decide))) := by
  unfold Float.Model.ofScientific UnpackedFloat.ofScientific
  rw [dif_neg hn.ne', exponentRange, if_neg (by decide), if_neg (by omega), if_pos le_rfl]
  rfl

theorem ofScientific_fraction (hn : 0 < n) (hk : 0 < k) (h : k ≤ 2048 + n.log2) :
    Float.Model.ofScientific n (-(k : Int)) =
      .pack (.div .binary64 (.finite .positive n 0 hn) (.finite .positive (10 ^ k) 0 (Nat.pow_pos (by decide)))) := by
  have hpower : (-(-(k : Int))).toNat = k := by omega
  unfold Float.Model.ofScientific UnpackedFloat.ofScientific
  rw [dif_neg hn.ne', exponentRange, if_neg (by omega), if_neg (by omega), if_neg (by omega)]
  simp only [hpower]

theorem ofScientific_tiny (hn : 0 < n) (h : 2048 + n.log2 < k) :
    Float.Model.ofScientific n (-(k : Int)) = .pack (.zero .positive) := by
  unfold Float.Model.ofScientific UnpackedFloat.ofScientific
  rw [dif_neg hn.ne', exponentRange, if_neg (by omega), if_pos (by omega)]

end

/-! ## Natural numbers and powers of ten -/

theorem scaled_natural (n k : Nat) : ((n * 2 ^ k : Nat) : ℚ) * 2 ^ (-(k : Int)) = n := by
  rw [zpow_neg, zpow_natCast]
  push_cast
  field_simp

/-- A natural number that is read from all its digits. -/
theorem isNearest_whole {n : Nat} (hn : 0 < n) : IsNearest .positive n (.ofModel (.ofScientific n 0)) := by
  have hplaces : 2 ^ 52 ≤ n <<< 53 * 10 ^ 0 := by
    rw [Nat.shiftLeft_eq]
    omega
  have hmul := isNearest_mul (Nat.shiftLeft_pos_iff.mpr hn) (-53) (show 0 < 10 ^ 0 by decide) 0 .positive .positive
    (.inr hplaces)
  have hvalue : ((n <<< 53 : Nat) : ℚ) * 2 ^ (-53 : Int) * ((10 ^ 0 : Nat) * 2 ^ (0 : Int)) = n := by
    rw [Nat.shiftLeft_eq, Nat.pow_zero, Nat.cast_one, one_mul, zpow_zero, mul_one]
    exact scaled_natural n 53
  rw [hvalue] at hmul
  rw [ofScientific_whole hn]
  exact hmul

/-- A natural number is read as the number nearest to it. -/
theorem isNearest_natural (n : Nat) : IsNearest .positive n (Float.ofScientific n false 0) := by
  rcases Nat.lt_or_ge n (2 ^ 53) with hlt | hge
  · have hreach : sign? (exact (Float.ofNat n)) = some .positive ∧ reach (exact (Float.ofNat n)) = n := by
      obtain rfl | ⟨hpos, k, hk⟩ := eq_zero_or_scaled hlt
      · exact ⟨rfl, by rw [Nat.cast_zero]; exact zero_mul _⟩
      · rw [exact_ofNat hpos hk (Nat.mul_pos hpos (Nat.two_pow_pos k))]
        exact ⟨rfl, scaled_natural n k⟩
    have hnearest := isNearest_reach hreach.1
    rw [hreach.2] at hnearest
    exact hnearest
  · unfold Float.ofScientific
    rw [dif_neg (by omega)]
    exact isNearest_whole (by omega)

/-- Whether a number is the given natural number. -/
def standsFor (n : Nat) : Exact → Bool
  | .finite .positive m e _ => m * 2 ^ e.toNat == n * 2 ^ (-e).toNat
  | _ => false

theorem eq_of_standsFor {n : Nat} {a : Exact} (h : standsFor n a = true) :
    ∃ m e hm, a = .finite .positive m e hm ∧ (m : ℚ) * 2 ^ e = n := by
  unfold standsFor at h
  split at h
  · rename_i m e hm
    refine ⟨m, e, hm, rfl, ?_⟩
    have hscaled : (m : ℚ) * 2 ^ e.toNat = n * 2 ^ (-e).toNat := by exact_mod_cast eq_of_beq h
    have hsplit : (2 : ℚ) ^ e = 2 ^ e.toNat / 2 ^ (-e).toNat := by
      rw [← zpow_natCast, ← zpow_natCast, ← zpow_sub₀ (by norm_num)]
      congr 1
      omega
    rw [hsplit, ← mul_div_assoc, hscaled]
    field_simp
  · cases h

theorem standsFor_powersOfTen : ∀ k : Fin 23,
    (Float.exactlyRepresentablePowersOfTen[k.val]?).all (standsFor (10 ^ k.val) ∘ exact) = true := by
  decide +kernel

/-- The powers of ten that are kept in a table are what they should be. -/
theorem exact_powerOfTen {k : Nat} {x : Float} (h : Float.exactlyRepresentablePowersOfTen[k]? = some x) :
    ∃ m e hm, exact x = .finite .positive m e hm ∧ (m : ℚ) * 2 ^ e = 10 ^ k := by
  have hk : k < 23 := (Array.getElem?_eq_some_iff.mp h).1
  have htable := standsFor_powersOfTen ⟨k, hk⟩
  rw [h] at htable
  obtain ⟨m, e, hm, hx, hvalue⟩ := eq_of_standsFor htable
  exact ⟨m, e, hm, hx, by rw [hvalue, Nat.cast_pow, Nat.cast_ofNat]⟩

/-! ## Fractions -/

/-- What is less than half of the least number is nearest to 0. -/
theorem isNearest_zero {q : ℚ} (h₀ : 0 ≤ q) (h : q * 2 ^ 1074 * 2 < 1) :
    IsNearest .positive q (.ofModel (.pack (.zero .positive))) := by
  have hstep : q / 2 ^ (-1074 : Int) = q * 2 ^ 1074 := by
    rw [zpow_neg, div_inv_eq_mul]
    rfl
  have hq : q * 2 ^ 1074 < 1 / 2 := (lt_div_iff₀ two_pos).mpr h
  have hnonneg : 0 ≤ q * 2 ^ 1074 := by positivity
  have hrounds : RoundsTo (q / 2 ^ (-1074 : Int)) 0 := by
    refine ⟨?_, fun _ => rfl⟩
    rw [hstep, Nat.cast_zero, zero_sub, abs_neg, abs_of_nonneg hnonneg]
    exact hq.le
  have hgrid := isNearest_of_grid (s := .positive) (e := -1074) (x := .ofModel (.pack (.zero .positive))) rfl hrounds
    le_rfl (.inl rfl) (by rw [hstep]; exact hq.trans (by norm_num))
  rwa [div_mul_cancel₀ _ (by positivity)] at hgrid

/-- What is left of a number after so many places. -/
theorem fraction_lt {n j k : Nat} (h : j + 1 + n.log2 < k) : (n : ℚ) / 10 ^ k * 2 ^ j * 2 < 1 := by
  have hten : n * 2 ^ (j + 1) < 10 ^ k := by
    calc n * 2 ^ (j + 1) < 2 ^ (n.log2 + 1) * 2 ^ (j + 1) := by gcongr; exact Nat.lt_log2_self
      _ = 2 ^ (n.log2 + 1 + (j + 1)) := (Nat.pow_add ..).symm
      _ ≤ 2 ^ k := Nat.pow_le_pow_right (by decide) (by omega)
      _ ≤ 10 ^ k := Nat.pow_le_pow_left (by decide) k
  rw [mul_assoc, ← pow_succ, div_mul_eq_mul_div, div_lt_one (by positivity)]
  exact_mod_cast hten

/-- A natural number over a power of ten. -/
theorem isNearest_fraction {n : Nat} (hn : 0 < n) {k : Nat} (hk : 0 < k) :
    IsNearest .positive (n / 10 ^ k) (.ofModel (.ofScientific n (-(k : Int)))) := by
  rcases Nat.lt_or_ge (2048 + n.log2) k with htiny | hle
  · rw [ofScientific_tiny hn htiny]
    exact isNearest_zero (by positivity) (fraction_lt (by omega))
  · have hten : 0 < 10 ^ k := Nat.pow_pos (by decide)
    have hdiv := isNearest_div hn 0 hten 0 .positive .positive
    rw [zpow_zero, mul_one, mul_one, Nat.cast_pow, Nat.cast_ofNat] at hdiv
    rw [ofScientific_fraction hn hk hle]
    exact hdiv

/-! ## Decimals -/

/-- A natural number over a power of ten, both of which are numbers. -/
theorem isNearest_shortFraction {n : Nat} (hn : n < 2 ^ 53) {k : Nat} {power : Float}
    (hpower : Float.exactlyRepresentablePowersOfTen[k]? = some power) :
    IsNearest .positive (n / 10 ^ k) (n.toUInt64.toFloat / power) := by
  obtain ⟨m, e, hm, hx, hvalue⟩ := exact_powerOfTen hpower
  have hdef : n.toUInt64.toFloat / power =
      .ofModel (.pack (.div .binary64 (exact n.toUInt64.toFloat) (exact power))) := rfl
  rw [hdef, hx]
  obtain rfl | ⟨hpos, j, hj⟩ := eq_zero_or_scaled hn
  · rw [Nat.cast_zero, zero_div]
    exact isNearest_zero le_rfl (by rw [zero_mul, zero_mul]; exact one_pos)
  · have hscaled : 0 < n * 2 ^ j := Nat.mul_pos hpos (Nat.two_pow_pos j)
    have hdiv := isNearest_div hscaled (-(j : Int)) hm e .positive .positive
    rw [scaled_natural, hvalue] at hdiv
    rw [exact_toFloat hpos hj hscaled]
    exact hdiv

theorem isNearest_ofScientific (n k : Nat) : IsNearest .positive (n / 10 ^ k) (Float.ofScientific n true k) := by
  unfold Float.ofScientific
  split
  · rename_i h
    exact isNearest_shortFraction h.1 (Array.getElem?_eq_getElem _)
  · rename_i h
    rcases Nat.eq_zero_or_pos n with rfl | hn
    · rw [Nat.cast_zero, zero_div]
      exact isNearest_zero le_rfl (by rw [zero_mul, zero_mul]; exact one_pos)
    rcases Nat.eq_zero_or_pos k with rfl | hk
    · rw [pow_zero, div_one]
      exact isNearest_whole hn
    · have hneg : Int.negOfNat k = -(k : Int) := rfl
      have hfraction := isNearest_fraction hn hk
      exact hfraction

/-- The value of a decimal. -/
def Decimal.value (d : Decimal) : ℚ := d.digits * 10 ^ d.exponent

/-- A decimal is read as the number nearest to it. -/
theorem isNearest_toFloat (d : Decimal) : IsNearest .positive d.value d.toFloat := by
  unfold Decimal.toFloat Decimal.value
  split
  · rename_i h
    have hvalue : (d.digits : ℚ) * 10 ^ d.exponent = (d.digits * 10 ^ d.exponent.toNat : Nat) := by
      conv_lhs => rw [← Int.toNat_of_nonneg h]
      push_cast
      rw [zpow_natCast]
    rw [hvalue]
    exact isNearest_natural _
  · rename_i h
    have hvalue : (d.digits : ℚ) * 10 ^ d.exponent = d.digits / 10 ^ (-d.exponent).toNat := by
      rw [div_eq_mul_inv, ← zpow_natCast, ← zpow_neg]
      congr 2
      omega
    rw [hvalue]
    exact isNearest_ofScientific _ _

/-! ## Decimals for a number -/

theorem toFloat_of_readsBack {x : Float} {d : Decimal} (h : Decimal.readsBack x d = true) : d.toFloat = x := by
  have hbits : d.toFloat.toBits = x.toBits := eq_of_beq h
  generalize d.toFloat = y at hbits
  obtain ⟨⟨⟩⟩ := x
  obtain ⟨⟨⟩⟩ := y
  cases hbits
  rfl

theorem toFloat_of_either {x : Float} {d first second : Decimal}
    (h : (if Decimal.readsBack x first then some first
      else if Decimal.readsBack x second then some second else none) = some d) : d.toFloat = x := by
  split at h
  · cases h
    exact toFloat_of_readsBack ‹_›
  · split at h
    · cases h
      exact toFloat_of_readsBack ‹_›
    · cases h

theorem toFloat_of_onGrid? {tie : Tie} {x : Float} {m : Nat} {e g : Int} {d : Decimal}
    (h : Decimal.onGrid? tie x m e g = some d) : d.toFloat = x := toFloat_of_either h

theorem toFloat_of_search {tie : Tie} {x : Float} {m : Nat} {e : Int} {fuel : Nat} {g : Int} {d : Decimal}
    (h : Decimal.search tie x m e fuel g = some d) : d.toFloat = x := by
  induction fuel generalizing g with
  | zero => cases h
  | succ fuel ih =>
    unfold Decimal.search at h
    split at h
    · rename_i hgrid
      cases h
      exact toFloat_of_onGrid? hgrid
    · exact ih h

theorem value_expansion (m : Nat) (e : Int) : (Decimal.expansion m e).value = m * 2 ^ e := by
  unfold Decimal.expansion
  split
  · rename_i h
    show ((m * 2 ^ e.toNat : Nat) : ℚ) * 10 ^ (0 : Int) = m * 2 ^ e
    conv_rhs => rw [← Int.toNat_of_nonneg h]
    rw [zpow_natCast, zpow_zero, mul_one]
    push_cast
    rfl
  · rename_i h
    show ((m * 5 ^ (-e).toNat : Nat) : ℚ) * 10 ^ e = m * 2 ^ e
    have hneg : e = -((-e).toNat : Int) := by omega
    generalize (-e).toNat = k at hneg ⊢
    subst hneg
    rw [zpow_neg, zpow_neg, zpow_natCast, zpow_natCast]
    push_cast
    rw [show (10 : ℚ) = 5 * 2 by norm_num, mul_pow]
    field_simp

/-- The decimal that is chosen for a number is read back as that number. -/
theorem toFloat_shortest (tie : Tie) {x : Float} {m : Nat} {e : Int} {hm : 0 < m}
    (hx : exact x = .finite .positive m e hm) : (Decimal.shortest tie x m e).toFloat = x := by
  unfold Decimal.shortest
  cases hsearch : Decimal.search tie x m e 17 (Decimal.scale m e - 1) with
  | some d => exact toFloat_of_search hsearch
  | none =>
    have hvalue : (Decimal.expansion m e).value = reach (exact x) := by
      rw [value_expansion, hx]
      rfl
    have hread := isNearest_toFloat (Decimal.expansion m e)
    rw [hvalue] at hread
    exact hread.eq (isNearest_reach (by rw [hx]; rfl))

end VirtualProcessor.Number
