import VirtualProcessor.Proofs.Number.Order

/-!
# The number nearest to a rational number

`IsNearest s q x` says that `x`, with the sign `s`, is the number nearest to `q`, and of two that are as near the one
with the even significand. An infinity takes the place of the power of two behind the greatest number: what is nearer
to that power than to the greatest number, or as near, becomes infinite.

* `IsNearest.eq`: there is one nearest number only, for of two neighbours one has an odd significand;
* `isNearest_reach`: a number is nearest to itself;
* `isNearest_of_grid`: it is enough to be nearest among the multiples of one power of two, if that leaves a significand
  of 53 bits.
-/

namespace VirtualProcessor.Number

open Float.Model Float.Model.UnpackedFloat

/-! ## Significands, exponents and signs -/

def sign? : Exact → Option Sign
  | .notANumber => none
  | .infinity s => some s
  | .zero s => some s
  | .finite s _ _ _ => some s

/-- The significand of a number. Infinities have that of a power of two. -/
def significand : Exact → Nat
  | .finite _ m _ _ => m
  | .infinity _ => 2 ^ 52
  | _ => 0

/-- The exponent of a number. Infinities have the one behind the greatest. -/
def exponent : Exact → Int
  | .finite _ _ e _ => e
  | .infinity _ => 972
  | _ => -1074

/-- How far a number is from zero. -/
def reach (a : Exact) : ℚ := significand a * 2 ^ exponent a

/-- The significands and exponents that numbers have: 53 bits, and fewer only under the least exponent. -/
structure Fits (m : Nat) (e : Int) : Prop where
  lt : m < 2 ^ 53
  least : -1074 ≤ e
  full : e = -1074 ∨ 2 ^ 52 ≤ m
  greatest : e ≤ 971 ∨ m = 2 ^ 52 ∧ e = 972

theorem fits_exact (x : Float) : Fits (significand (exact x)) (exponent (exact x)) := by
  cases h : exact x with
  | finite s m e hm =>
    obtain ⟨hlt, hfull⟩ := exact_bounds h
    show Fits m e
    exact ⟨hlt, by omega, by omega, .inl (by omega)⟩
  | infinity s =>
    show Fits (2 ^ 52) 972
    exact ⟨by decide, by decide, by decide, by decide⟩
  | zero s =>
    show Fits 0 (-1074)
    exact ⟨by decide, by decide, by decide, by decide⟩
  | notANumber =>
    show Fits 0 (-1074)
    exact ⟨by decide, by decide, by decide, by decide⟩

/-- The number with a sign, a significand and an exponent. -/
def ofParts (s : Sign) (m : Nat) (e : Int) : Exact :=
  if 971 < e then .infinity s
  else if h : 0 < m then .finite s m e h
  else .zero s

section

variable {s : Sign} {m : Nat} {e : Int}

theorem sign?_ofParts (s : Sign) (m : Nat) (e : Int) : sign? (ofParts s m e) = some s := by
  unfold ofParts
  split
  · rfl
  · split <;> rfl

theorem significand_ofParts (h : Fits m e) : significand (ofParts s m e) = m := by
  have hgreatest := h.greatest
  unfold ofParts
  split
  · simp only [significand]
    omega
  · split
    · rfl
    · simp only [significand]
      omega

theorem exponent_ofParts (h : Fits m e) : exponent (ofParts s m e) = e := by
  have hfull := h.full
  have hgreatest := h.greatest
  unfold ofParts
  split
  · simp only [exponent]
    omega
  · split
    · rfl
    · simp only [exponent]
      omega

/-- A number is put together from its sign, its significand and its exponent. -/
theorem ofParts_exact {x : Float} (h : sign? (exact x) = some s) :
    ofParts s (significand (exact x)) (exponent (exact x)) = exact x := by
  cases hx : exact x with
  | notANumber =>
    rw [hx] at h
    cases h
  | infinity t =>
    rw [hx] at h
    cases h
    rfl
  | zero t =>
    rw [hx] at h
    cases h
    rfl
  | finite t m e hm =>
    rw [hx] at h
    cases h
    obtain ⟨-, hfull⟩ := exact_bounds hx
    show ofParts s m e = _
    unfold ofParts
    rw [if_neg (by omega), dif_pos hm]

/-- Shorter significands stand under the least exponent, and are stored as they are. -/
theorem unpack_pack_subnormal (s : Sign) {m : Nat} (hpos : 0 < m) (hlt : m < 2 ^ 52) :
    (Float.Model.pack (.finite s m (-1074) hpos)).unpack = .finite s m (-1074) hpos := by
  have hlog : m.log2 < 52 := (Nat.log2_lt (Nat.ne_of_gt hpos)).mpr hlt
  have hmantissa : (BitVec.ofNat 52 m).toNat = m := Nat.mod_eq_of_lt hlt
  have hne : BitVec.ofNat 52 m ≠ 0#52 := fun h => by
    have : m = 0 := hmantissa.symm.trans (congrArg BitVec.toNat h)
    omega
  have hpack : UnpackedFloat.pack .binary64 (.finite s m (-1074) hpos) =
      packComponents .binary64 s 0#11 (BitVec.ofNat 52 m) := by
    simp only [UnpackedFloat.pack]
    rw [if_neg (by decide), if_neg (by simp only [Format.mantissaBits]; omega)]
  show UnpackedFloat.unpack .binary64 (UnpackedFloat.pack .binary64 (.finite s m (-1074) hpos)) = _
  simp only [hpack, UnpackedFloat.unpack, unpackMantissa_packComponents, unpackExponent_packComponents,
    ofBitVec_unpackSign, hmantissa, if_neg (show ¬ 0#11 = -1#11 by decide), dif_neg hne]
  rfl

/-- What fits is kept when it is put into the 64 bits of a number. -/
theorem exact_pack_ofParts (s : Sign) (h : Fits m e) : exact (.ofModel (.pack (ofParts s m e))) = ofParts s m e := by
  show (Float.Model.pack (ofParts s m e)).unpack = ofParts s m e
  have hgreatest := h.greatest
  unfold ofParts
  split
  · cases s <;> rfl
  · split
    · rename_i hhigh hpos
      rcases Nat.lt_or_ge m (2 ^ 52) with hlt | hge
      · obtain rfl : e = -1074 := h.full.resolve_right (by omega)
        exact unpack_pack_subnormal s hpos hlt
      · have hlog : m.log2 = 52 := (Nat.log2_eq_iff (Nat.ne_of_gt hpos)).mpr ⟨hge, h.lt⟩
        exact unpack_pack_normal s hlog hpos h.least (by omega)
    · cases s <;> rfl

/-- There is a number for all that fits. -/
theorem exists_of_fits (s : Sign) (h : Fits m e) :
    ∃ x : Float, sign? (exact x) = some s ∧ significand (exact x) = m ∧ exponent (exact x) = e := by
  refine ⟨.ofModel (.pack (ofParts s m e)), ?_⟩
  rw [exact_pack_ofParts s h]
  exact ⟨sign?_ofParts s m e, significand_ofParts h, exponent_ofParts h⟩

end

theorem eq_of_exact {x y : Float} (h : exact x = exact y) : x = y := by
  have hx : Float.ofModel (.pack (exact x)) = x := congrArg Float.ofModel (pack_unpack x.toModel)
  have hy : Float.ofModel (.pack (exact y)) = y := congrArg Float.ofModel (pack_unpack y.toModel)
  rw [← hx, h, hy]

/-! ## Distances -/

section

variable {m n : Nat} {e f : Int}

/-- A number with a full significand is greater than one with a lesser exponent. -/
theorem scaled_lt (hm : m < 2 ^ 53) (hn : 2 ^ 52 ≤ n) (h : e < f) : (m : ℚ) * 2 ^ e < n * 2 ^ f := by
  have hm : (m : ℚ) < 2 ^ 53 := by exact_mod_cast hm
  have hn : (2 : ℚ) ^ 52 ≤ n := by exact_mod_cast hn
  have hpow : (2 : ℚ) ^ (e + 1) ≤ 2 ^ f := zpow_le_zpow_right₀ (by norm_num) h
  calc (m : ℚ) * 2 ^ e < 2 ^ 53 * 2 ^ e := by gcongr
    _ = 2 ^ 52 * 2 ^ (e + 1) := by rw [zpow_add_one₀ (by norm_num)]; ring
    _ ≤ n * 2 ^ f := by gcongr

/-- Under an exponent that is not lesser a number is a multiple. -/
theorem scaled_of_le (n : Nat) (h : e ≤ f) : (n : ℚ) * 2 ^ f = (n * 2 ^ (f - e).toNat : Nat) * 2 ^ e := by
  have hsplit : (2 : ℚ) ^ f = 2 ^ (f - e).toNat * 2 ^ e := by
    rw [← zpow_natCast, ← zpow_add₀ (by norm_num)]
    congr 1
    omega
  push_cast
  rw [hsplit, mul_assoc]

namespace Fits

/-- Between a number and the next multiple of its unit there is no other one. -/
theorem succ_le (h : Fits m e) (h' : Fits n f) (hlt : (m : ℚ) * 2 ^ e < n * 2 ^ f) :
    ((m + 1 : Nat) : ℚ) * 2 ^ e ≤ n * 2 ^ f := by
  have hunit : (0 : ℚ) < 2 ^ e := by positivity
  rcases lt_or_ge f e with hfe | hef
  · have hleast := h'.least
    have hless := scaled_lt h'.lt (h.full.resolve_left (by omega)) hfe
    exact absurd hlt (lt_asymm hless)
  · rw [scaled_of_le n hef] at hlt ⊢
    have hlt : m < n * 2 ^ (f - e).toNat := by exact_mod_cast lt_of_mul_lt_mul_right hlt hunit.le
    have hle : ((m + 1 : Nat) : ℚ) ≤ (n * 2 ^ (f - e).toNat : Nat) := by exact_mod_cast hlt
    gcongr

theorem eq_of_scaled (h : Fits m e) (h' : Fits n f) (heq : (m : ℚ) * 2 ^ e = n * 2 ^ f) : m = n ∧ e = f := by
  have hleast := h.least
  have hleast' := h'.least
  rcases Int.lt_trichotomy e f with hlt | rfl | hgt
  · exact absurd heq (scaled_lt h.lt (h'.full.resolve_left (by omega)) hlt).ne
  · have hmn : (m : ℚ) = n := mul_right_cancel₀ (by positivity) heq
    exact ⟨by exact_mod_cast hmn, rfl⟩
  · exact absurd heq (scaled_lt h'.lt (h.full.resolve_left (by omega)) hgt).ne'

end Fits

end

/-- Nothing is farther from zero than the infinities. -/
theorem reach_le (x : Float) : reach (exact x) ≤ 2 ^ 52 * 2 ^ (972 : Int) := by
  have hfits := fits_exact x
  rcases hfits.greatest with he | ⟨hm, he⟩
  · have hless := scaled_lt hfits.lt (n := 2 ^ 52) le_rfl (show exponent (exact x) < 972 by omega)
    exact_mod_cast hless.le
  · rw [reach, hm, he]
    norm_num

/-! ## The nearest number -/

/-- The one number is at least as near to `q` as the other. If they are as near, it is as far from zero, too, or has an
even significand. -/
def Prefers (q : ℚ) (a b : Exact) : Prop :=
  |reach a - q| ≤ |reach b - q| ∧
    (|reach a - q| = |reach b - q| → reach a = reach b ∨ significand a % 2 = 0)

theorem prefers_of_lt {q : ℚ} {a b : Exact} (h : |reach a - q| < |reach b - q|) : Prefers q a b :=
  ⟨h.le, fun heq => absurd heq h.ne⟩

/-- The number with the sign `s` that is nearest to `q`. -/
structure IsNearest (s : Sign) (q : ℚ) (x : Float) : Prop where
  sign : sign? (exact x) = some s
  preferred (y : Float) : Prefers q (exact x) (exact y)

namespace IsNearest

variable {s : Sign} {q : ℚ} {x y : Float}

/-- Of two nearest numbers neither is less: the number behind the lesser one would be the greater one, and its
significand odd. -/
theorem reach_le_reach (hx : IsNearest s q x) (hy : IsNearest s q y) : reach (exact y) ≤ reach (exact x) := by
  refine not_lt.mp fun hlt => ?_
  have hdistance : |reach (exact x) - q| = |reach (exact y) - q| :=
    le_antisymm (hx.preferred y).1 (hy.preferred x).1
  have hevenx := ((hx.preferred y).2 hdistance).resolve_left hlt.ne
  have heveny := ((hy.preferred x).2 hdistance.symm).resolve_left hlt.ne'
  have hmiddle : reach (exact x) - q = -(reach (exact y) - q) :=
    (abs_eq_abs.mp hdistance).resolve_left (by linarith)
  have hfits := fits_exact x
  have hexponent : exponent (exact x) ≤ 971 := by
    rcases hfits.greatest with h | ⟨hm, he⟩
    · exact h
    · have htop : reach (exact x) = 2 ^ 52 * 2 ^ (972 : Int) := by
        rw [reach, hm, he]
        norm_num
      exact absurd (reach_le y) (by rw [← htop]; exact hlt.not_ge)
  have hnext : Fits (significand (exact x) + 1) (exponent (exact x)) :=
    ⟨by have := hfits.lt; omega, hfits.least, by have := hfits.full; omega, .inl hexponent⟩
  obtain ⟨z, -, hm, he⟩ := exists_of_fits s hnext
  have hz : reach (exact z) = ((significand (exact x) + 1 : Nat) : ℚ) * 2 ^ exponent (exact x) := by
    rw [reach, hm, he]
  have hbehind : reach (exact x) < reach (exact z) := by
    rw [hz, reach]
    push_cast
    have : (0 : ℚ) < 2 ^ exponent (exact x) := by positivity
    linarith
  have hle : reach (exact z) ≤ reach (exact y) := hz ▸ hfits.succ_le (fits_exact y) hlt
  -- The middle between the two is nearer to the next number than to the first, unless that is the second.
  have hsame : reach (exact z) = reach (exact y) := by
    refine le_antisymm hle (not_lt.mp fun hbetween => ?_)
    refine absurd (hx.preferred z).1 (not_le.mpr ?_)
    rw [abs_of_neg (show reach (exact x) - q < 0 by linarith), abs_lt]
    constructor <;> linarith
  have hodd := ((fits_exact z).eq_of_scaled (fits_exact y) hsame).1
  omega

/-- There is one nearest number only. -/
theorem eq (hx : IsNearest s q x) (hy : IsNearest s q y) : x = y := by
  have hreach : reach (exact x) = reach (exact y) := le_antisymm (hy.reach_le_reach hx) (hx.reach_le_reach hy)
  obtain ⟨hm, he⟩ := (fits_exact x).eq_of_scaled (fits_exact y) hreach
  refine eq_of_exact ?_
  rw [← ofParts_exact hx.sign, ← ofParts_exact hy.sign, hm, he]

end IsNearest

/-- A number is nearest to itself. -/
theorem isNearest_reach {s : Sign} {x : Float} (h : sign? (exact x) = some s) : IsNearest s (reach (exact x)) x where
  sign := h
  preferred y := by
    rw [Prefers, sub_self, abs_zero]
    refine ⟨abs_nonneg _, fun heq => .inl ?_⟩
    exact (sub_eq_zero.mp (abs_eq_zero.mp heq.symm)).symm

/-- The infinities are nearest to all that is not less than they are. -/
theorem isNearest_infinity {s : Sign} {q : ℚ} {x : Float} (hx : exact x = .infinity s)
    (hq : 2 ^ 52 * 2 ^ (972 : Int) ≤ q) : IsNearest s q x where
  sign := by rw [hx]; rfl
  preferred y := by
    have hreach : reach (exact x) = 2 ^ 52 * 2 ^ (972 : Int) := by
      rw [hx]
      norm_num [reach, significand, exponent]
    have hle := reach_le y
    rw [Prefers, hreach, abs_sub_comm, abs_sub_comm _ q, abs_of_nonneg (by linarith), abs_of_nonneg (by linarith)]
    exact ⟨by linarith, fun heq => .inl (by linarith)⟩

/-! ## Other signs -/

section

variable {x : Float} {s : Sign}

theorem neg_ofParts (s : Sign) (m : Nat) (e : Int) : (ofParts s m e).neg = ofParts (-s) m e := by
  unfold ofParts
  split
  · rfl
  · split <;> rfl

theorem abs_ofParts (s : Sign) (m : Nat) (e : Int) : (ofParts s m e).abs = ofParts .positive m e := by
  unfold ofParts
  split
  · rfl
  · split <;> rfl

theorem exact_neg (h : sign? (exact x) = some s) :
    exact x.neg = ofParts (-s) (significand (exact x)) (exponent (exact x)) := by
  show exact (.ofModel (.pack (exact x).neg)) = _
  conv_lhs => rw [← ofParts_exact h, neg_ofParts]
  exact exact_pack_ofParts (-s) (fits_exact x)

theorem exact_abs (h : sign? (exact x) = some s) :
    exact x.abs = ofParts .positive (significand (exact x)) (exponent (exact x)) := by
  show exact (.ofModel (.pack (exact x).abs)) = _
  conv_lhs => rw [← ofParts_exact h, abs_ofParts]
  exact exact_pack_ofParts .positive (fits_exact x)

/-- With the other sign, a number is nearest to what it was. -/
theorem IsNearest.neg {q : ℚ} (h : IsNearest s q x) : IsNearest (-s) q x.neg where
  sign := exact_neg h.sign ▸ sign?_ofParts ..
  preferred y := by
    have hfits := fits_exact x
    have hpreferred := h.preferred y
    unfold Prefers reach at hpreferred ⊢
    rw [exact_neg h.sign, significand_ofParts hfits, exponent_ofParts hfits]
    exact hpreferred

/-- A negative number is the one without its sign, with the sign put back. -/
theorem neg_abs (h : sign? (exact x) = some .negative) : x.abs.neg = x := by
  have hfits := fits_exact x
  have habs := exact_abs h
  have hsign : sign? (exact x.abs) = some .positive := habs ▸ sign?_ofParts ..
  refine eq_of_exact ?_
  rw [exact_neg hsign, habs, significand_ofParts hfits, exponent_ofParts hfits]
  exact ofParts_exact h

theorem abs_of_positive (h : sign? (exact x) = some .positive) : x.abs = x :=
  eq_of_exact ((exact_abs h).trans (ofParts_exact h))

end

/-! ## Multiples of a power of two -/

/-- The natural number nearest to `t`, a half going to the even one. -/
structure RoundsTo (t : ℚ) (r : Nat) : Prop where
  near : |(r : ℚ) - t| ≤ 1 / 2
  tie (h : |(r : ℚ) - t| = 1 / 2) : r % 2 = 0

namespace RoundsTo

variable {t : ℚ} {r : Nat} (h : RoundsTo t r)

include h

theorem closest (j : Nat) : |(r : ℚ) - t| ≤ |(j : ℚ) - t| ∧ (|(r : ℚ) - t| = |(j : ℚ) - t| → r = j ∨ r % 2 = 0) := by
  rcases eq_or_ne r j with rfl | hne
  · exact ⟨le_rfl, fun _ => .inl rfl⟩
  · have hapart : (1 : ℚ) ≤ |(r : ℚ) - j| := by
      have : (1 : ℤ) ≤ |(r : ℤ) - j| := Int.one_le_abs (by omega)
      exact_mod_cast this
    have htriangle : |(r : ℚ) - j| ≤ |(r : ℚ) - t| + |(j : ℚ) - t| := by
      rw [abs_sub_comm (j : ℚ) t]
      exact abs_sub_le _ _ _
    have hnear := h.near
    exact ⟨by linarith, fun heq => .inr (h.tie (by linarith))⟩

theorem le_of_lt {n : Nat} (ht : t < n) : r ≤ n := by
  have hnear := abs_le.mp h.near
  have hr : (r : ℚ) < (n + 1 : Nat) := by
    push_cast
    linarith
  exact Nat.lt_succ_iff.mp (by exact_mod_cast hr)

theorem le_of_le {n : Nat} (ht : (n : ℚ) ≤ t) : n ≤ r := by
  have hnear := abs_le.mp h.near
  have hr : (n : ℚ) < (r + 1 : Nat) := by
    push_cast
    linarith
  exact Nat.lt_succ_iff.mp (by exact_mod_cast hr)

variable {e : Int} {a b : Exact} (ha : reach a = r * 2 ^ e)

include ha

theorem prefers_multiple (heven : r % 2 = 0 → significand a % 2 = 0) {j : Nat} (hb : reach b = j * 2 ^ e) :
    Prefers (t * 2 ^ e) a b := by
  obtain ⟨hle, htie⟩ := h.closest j
  have hunit : (0 : ℚ) < 2 ^ e := by positivity
  rw [Prefers, ha, hb, ← sub_mul, ← sub_mul, abs_mul, abs_mul, abs_of_pos hunit]
  refine ⟨by gcongr, fun heq => ?_⟩
  rcases htie (mul_right_cancel₀ hunit.ne' heq) with rfl | hzero
  · exact .inl rfl
  · exact .inr (heven hzero)

/-- What is less than a multiple that is not greater than `t * 2 ^ e` is farther away. -/
theorem prefers_lesser {n : Nat} (hn : (n : ℚ) ≤ t) (hb : reach b < n * 2 ^ e) : Prefers (t * 2 ^ e) a b := by
  have hunit : (0 : ℚ) < 2 ^ e := by positivity
  have hmultiple : (n : ℚ) * 2 ^ e ≤ t * 2 ^ e := by gcongr
  have hnear : |reach a - t * 2 ^ e| ≤ t * 2 ^ e - n * 2 ^ e := by
    have hle := (h.closest n).1
    rw [abs_sub_comm (n : ℚ), abs_of_nonneg (show 0 ≤ t - n by linarith)] at hle
    rw [ha, ← sub_mul, ← sub_mul, abs_mul, abs_of_pos hunit]
    gcongr
  refine prefers_of_lt ?_
  rw [abs_sub_comm (reach b), abs_of_nonneg (show 0 ≤ t * 2 ^ e - reach b by linarith)]
  linarith

end RoundsTo

/-- A significand and its exponent; one that has become too long is halved. -/
def carried (r : Nat) (e : Int) : Nat × Int := if r < 2 ^ 53 then (r, e) else (2 ^ 52, e + 1)

section

variable {r : Nat} {e : Int}

theorem carried_scaled (hr : r ≤ 2 ^ 53) : ((carried r e).1 : ℚ) * 2 ^ (carried r e).2 = r * 2 ^ e := by
  unfold carried
  split
  · rfl
  · obtain rfl : r = 2 ^ 53 := by omega
    rw [zpow_add_one₀ (by norm_num)]
    push_cast
    ring

theorem le_carried (r : Nat) (e : Int) : e ≤ (carried r e).2 := by
  unfold carried
  split
  · exact le_rfl
  · exact Int.le_add_one le_rfl

theorem fits_carried (hleast : -1074 ≤ e) (hfull : e = -1074 ∨ 2 ^ 52 ≤ r) (he : e ≤ 971) :
    Fits (carried r e).1 (carried r e).2 := by
  unfold carried
  split
  · exact ⟨by assumption, hleast, hfull, .inl he⟩
  · show Fits (2 ^ 52) (e + 1)
    exact ⟨by decide, by omega, .inr le_rfl, by omega⟩

theorem even_carried (h : r % 2 = 0) : (carried r e).1 % 2 = 0 := by
  unfold carried
  split
  · exact h
  · show 2 ^ 52 % 2 = 0
    decide

/-- What is nearest among the multiples of a power of two is nearest among all numbers, where that power leaves a
significand of 53 bits or belongs to the least exponent. -/
theorem isNearest_of_grid {s : Sign} {t : ℚ} {x : Float} (hx : exact x = ofParts s (carried r e).1 (carried r e).2)
    (h : RoundsTo t r) (hleast : -1074 ≤ e) (hfull : e = -1074 ∨ 2 ^ 52 ≤ t) (hhigh : t < 2 ^ 53) :
    IsNearest s (t * 2 ^ e) x := by
  rcases lt_or_ge 971 e with hover | he
  · have hlow := hfull.resolve_left (by omega)
    have hpow : (2 : ℚ) ^ (972 : Int) ≤ 2 ^ e := zpow_le_zpow_right₀ (by norm_num) hover
    refine isNearest_infinity ?_ (by gcongr)
    rw [hx, ofParts, if_pos (lt_of_lt_of_le hover (le_carried r e))]
  · have hr : r ≤ 2 ^ 53 := h.le_of_lt (by exact_mod_cast hhigh)
    have hfits : Fits (carried r e).1 (carried r e).2 :=
      fits_carried hleast (hfull.imp id fun ht => h.le_of_le (by exact_mod_cast ht)) he
    have hreach : reach (exact x) = r * 2 ^ e := by
      rw [reach, hx, significand_ofParts hfits, exponent_ofParts hfits, carried_scaled hr]
    have heven (hr : r % 2 = 0) : significand (exact x) % 2 = 0 := by
      rw [hx, significand_ofParts hfits]
      exact even_carried hr
    refine ⟨hx ▸ sign?_ofParts .., fun y => ?_⟩
    have hy := fits_exact y
    rcases lt_or_ge (exponent (exact y)) e with hlt | hge
    · have hlow := hfull.resolve_left (by have := hy.least; omega)
      exact h.prefers_lesser hreach (by exact_mod_cast hlow) (scaled_lt hy.lt (n := 2 ^ 52) le_rfl hlt)
    · exact h.prefers_multiple hreach heven (scaled_of_le _ hge)

end

end VirtualProcessor.Number
