import VirtualProcessor.Proofs.Number.Nearest
import VirtualProcessor.Proofs.Number.Truncation

/-!
# Differences that are not numbers

The difference of two numbers is a number, unless they are the same infinity (`isNaN_sub_iff`): rounding gives a number,
and what is a number is one in its 64 bits (`isNaN_pack`). Numbers are in order, or in the opposite one
(`le_iff_not_lt`), while what is not a number is in no order with anything (`not_lt_of_isNaN`, `not_le_of_isNaN`).
-/

namespace VirtualProcessor.Number

open Float.Model Float.Model.UnpackedFloat

/-! ## Rounding -/

theorem isNaN_roundWithAccuracy (s : Sign) (m : Nat) (e : Int) (accuracy : Accuracy) :
    (roundWithAccuracy .binary64 s m e accuracy).isNaN = false := by
  unfold roundWithAccuracy
  simp only
  split <;> rfl

theorem isNaN_normalize (m e : Int) (s : Sign) : (UnpackedFloat.normalize .binary64 m e s).isNaN = false := by
  unfold UnpackedFloat.normalize
  split
  · exact isNaN_roundWithAccuracy ..
  · rfl
  · exact isNaN_roundWithAccuracy ..

/-- Only the greatest exponent stands for what is not a number. -/
theorem isNaN_packComponents (s : Sign) {e : BitVec 11} (he : e ≠ -1#11) (m : BitVec 52) :
    (UnpackedFloat.unpack .binary64 (packComponents .binary64 s e m)).isNaN = false := by
  simp only [UnpackedFloat.unpack, unpackExponent_packComponents, if_neg he]
  split
  · split <;> rfl
  · rfl

/-- What is a number is still one when it is put into 64 bits, and what is not is not. -/
theorem isNaN_pack (a : Exact) : (exact (.ofModel (.pack a))).isNaN = a.isNaN := by
  show (UnpackedFloat.unpack .binary64 (UnpackedFloat.pack .binary64 a)).isNaN = _
  cases a with
  | notANumber => rfl
  | infinity s => cases s <;> rfl
  | zero s => cases s <;> rfl
  | finite s m e hm =>
    simp only [UnpackedFloat.pack]
    split
    · cases s <;> rfl
    · rename_i hlt
      have hlt : ¬ 2048 ≤ (e + Format.exponentBias .binary64 + (52 : Nat)).toNat + 1 := hlt
      split
      · refine isNaN_packComponents s (fun h => ?_) _
        have hgreatest := congrArg BitVec.toNat h
        rw [BitVec.toNat_ofNat] at hgreatest
        have hgreatest : (e + Format.exponentBias .binary64 + (52 : Nat)).toNat % 2048 = 2047 := hgreatest
        omega
      · exact isNaN_packComponents s (by decide) _

/-! ## Differences and distances -/

theorem isNaN_unpackedSub_iff {a b : Exact} (ha : a.isNaN = false) (hb : b.isNaN = false) :
    (UnpackedFloat.sub .binary64 a b).isNaN = true ↔ ∃ s, a = .infinity s ∧ b = .infinity s := by
  have hother (h : (UnpackedFloat.sub .binary64 a b).isNaN = false) (hne : ∀ s, a = .infinity s → b ≠ .infinity s) :
      (UnpackedFloat.sub .binary64 a b).isNaN = true ↔ ∃ s, a = .infinity s ∧ b = .infinity s :=
    iff_of_false (Bool.eq_false_iff.mp h) fun ⟨s, has, hbs⟩ => hne s has hbs
  cases a with
  | notANumber => cases ha
  | infinity s =>
    cases b with
    | notANumber => cases hb
    | infinity t =>
      cases s <;> cases t
      · exact iff_of_true rfl ⟨_, rfl, rfl⟩
      · exact hother rfl (by rintro _ ⟨⟩ ⟨⟩)
      · exact hother rfl (by rintro _ ⟨⟩ ⟨⟩)
      · exact iff_of_true rfl ⟨_, rfl, rfl⟩
    | zero t => exact hother rfl (by rintro _ - ⟨⟩)
    | finite t n f hn => exact hother rfl (by rintro _ - ⟨⟩)
  | zero s =>
    refine hother ?_ (by rintro _ ⟨⟩)
    cases b with
    | notANumber => cases hb
    | zero t => cases s <;> cases t <;> rfl
    | infinity t => rfl
    | finite t n f hn => rfl
  | finite s m e hm =>
    refine hother ?_ (by rintro _ ⟨⟩)
    cases b with
    | notANumber => cases hb
    | zero t => rfl
    | infinity t => rfl
    | finite t n f hn => exact isNaN_normalize ..

/-- The difference of two numbers is a number, unless they are the same infinity. -/
theorem isNaN_sub_iff {x y : Float} (hx : x.isNaN = false) (hy : y.isNaN = false) :
    (x - y).isNaN = true ↔ x.isInf = true ∧ x = y := by
  have hsub : (x - y).isNaN = (UnpackedFloat.sub .binary64 (exact x) (exact y)).isNaN := isNaN_pack _
  have hiff : _ ↔ ∃ s, exact x = .infinity s ∧ exact y = .infinity s := isNaN_unpackedSub_iff hx hy
  rw [hsub]
  refine hiff.trans ?_
  constructor
  · rintro ⟨s, hxs, hys⟩
    refine ⟨?_, eq_of_exact (hxs.trans hys.symm)⟩
    show (exact x).isInf = true
    rw [hxs]
    rfl
  · rintro ⟨hinf, rfl⟩
    change (exact x).isInf = true at hinf
    cases hxs : exact x with
    | infinity s => exact ⟨s, rfl, rfl⟩
    | _ =>
      rw [hxs] at hinf
      cases hinf

theorem isNaN_abs (x : Float) : x.abs.isNaN = x.isNaN := by
  refine (isNaN_pack (exact x).abs).trans ?_
  show _ = (exact x).isNaN
  cases exact x <;> rfl

/-- A number that is not infinite differs from itself by zero. -/
theorem sub_self {x : Float} (hx : x.isNaN = false) (hfinite : x.isInf = false) : x - x = 0 := by
  have hzero : UnpackedFloat.sub .binary64 (exact x) (exact x) = .zero .positive := by
    change (exact x).isNaN = false at hx
    change (exact x).isInf = false at hfinite
    cases h : exact x with
    | notANumber =>
      rw [h] at hx
      cases hx
    | infinity s =>
      rw [h] at hfinite
      cases hfinite
    | zero s => cases s <;> rfl
    | finite s m e hm =>
      simp only [UnpackedFloat.sub, Int.sub_self, UnpackedFloat.normalize]
      rfl
  exact congrArg (fun a => Float.ofModel (.pack a)) hzero

/-! ## Order -/

section

variable {x y : Float}

theorem le_iff_not_lt (hx : x.isNaN = false) (hy : y.isNaN = false) : x ≤ y ↔ ¬ y < x :=
  ⟨not_lt_of_le, le_of_not_lt hx hy⟩

theorem compare_of_isNaN (hx : x.isNaN = true) (y : Float) : (exact x).compare (exact y) = none := by
  change (exact x).isNaN = true at hx
  cases h : exact x with
  | notANumber => rfl
  | _ =>
    rw [h] at hx
    cases hx

theorem not_lt_of_isNaN (hx : x.isNaN = true) : ¬ x < y := by
  rw [lt_iff_compare, compare_of_isNaN hx]
  exact (Option.some_ne_none _).symm

theorem not_le_of_isNaN (hy : y.isNaN = true) : ¬ x ≤ y := by
  rw [le_iff_compare, compare_swap, compare_of_isNaN hy]
  exact Bool.false_ne_true

end

end VirtualProcessor.Number
