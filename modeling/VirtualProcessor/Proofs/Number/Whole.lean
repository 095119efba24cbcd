import Mathlib
import VirtualProcessor.Number.Exact

/-!
# Whole numbers

The natural numbers below `2 ^ 53` are numbers of the machine, and reading one gives it back
(`natural?_ofNat`). A number is held with a significand of 53 bits, so a natural number is held with its
significand moved up to that width (`exact_ofNat`):

* `roundWithAccuracy_normal`: a significand of that width, moved up by any number of places, is rounded back
  to itself;
* `unpack_pack_normal`: it is kept when the number is put into its 64 bits.
-/

namespace VirtualProcessor.Number

open Float.Model Float.Model.UnpackedFloat

/-! ## Rounding what is exact -/

/-- Places that hold zeros are dropped without a trace. -/
theorem shiftRight_mul_two_pow (m k : Nat) :
    (⟨m * 2 ^ k, false, false⟩ : ExtendedMantissa) >>> k = ⟨m, false, false⟩ := by
  show Nat.repeat ExtendedMantissa.shiftRightOne k _ = _
  induction k generalizing m with
  | zero => simp [Nat.repeat]
  | succ k ih =>
    rw [Nat.repeat, Nat.pow_succ', ← Nat.mul_assoc, ih]
    simp [ExtendedMantissa.shiftRightOne]

theorem log2_mul_two_pow {m : Nat} (hm : m ≠ 0) (k : Nat) : (m * 2 ^ k).log2 = m.log2 + k := by
  induction k with
  | zero => simp
  | succ k ih =>
    have hpos : m * 2 ^ k ≠ 0 := Nat.mul_ne_zero hm (Nat.ne_of_gt (Nat.two_pow_pos k))
    rw [Nat.pow_succ', Nat.mul_left_comm, Nat.log2_two_mul hpos, ih, Nat.add_assoc]

/-- The exponent that goes with a significand of 53 bits is the one it has. -/
theorem shiftToTargetExponent_normal {m : Nat} (hm : m.log2 = 52) (k : Nat) {e : Int} (he : -1074 ≤ e) :
    shiftToTargetExponent .binary64 (m * 2 ^ k) (e - k) .exact = (⟨m, false, false⟩, e) := by
  have hpos : m ≠ 0 := fun h => absurd (h ▸ hm) (by decide)
  have htarget : Format.targetExponent .binary64 (totalExponent (m * 2 ^ k) (e - k)) = e := by
    simp only [totalExponent, log2_mul_two_pow hpos, hm, Format.targetExponent, Format.mantissaBits,
      Format.minExponent]
    omega
  have hshift : (e - (e - (k : Int))).toNat = k := by omega
  simp only [shiftToTargetExponent, htarget, shiftToExponent, hshift,
    ExtendedMantissa.ofMantissaAndAccuracy, shiftRight_mul_two_pow]
  rw [Int.sub_add_cancel]

theorem roundWithAccuracy_normal (s : Sign) {m : Nat} (hm : m.log2 = 52) (hpos : 0 < m) (k : Nat)
    {e : Int} (he : -1074 ≤ e) :
    roundWithAccuracy .binary64 s (m * 2 ^ k) (e - k) .exact = .finite s m e hpos := by
  have hkept : shiftToTargetExponent .binary64 m e .exact = (⟨m, false, false⟩, e) := by
    simpa using shiftToTargetExponent_normal hm 0 he
  simp only [roundWithAccuracy, shiftToTargetExponent_normal hm k he,
    ExtendedMantissa.roundedMantissa, ExtendedMantissa.accuracy, Accuracy.roundToNearestEven, hkept,
    dif_neg (Nat.ne_of_gt hpos)]

/-! ## The 64 bits of a number -/

/-- The sign is read as it was stored. -/
theorem ofBitVec_unpackSign {f : Format} (s : Sign) (e : BitVec f.exponentBits)
    (m : BitVec f.mantissaBitsWithoutImplicit) :
    Sign.ofBitVec (unpackSign (packComponents f s e m)) = s := by
  have hsign : unpackSign (packComponents f s e m) = s.toBitVec := by
    ext i hi
    have hi : i = 0 := by omega
    simp [unpackSign, packComponents, BitVec.getLsbD_append, BitVec.getElem_append, hi]
  rw [hsign]
  cases s <;> rfl

/-- The leading bit of a significand of 53 bits is not stored, and put back when it is read. -/
theorem toNat_leading_append {m : Nat} (hm : m.log2 = 52) (hpos : 0 < m) :
    (1#1 ++ BitVec.ofNat 52 m).toNat = m := by
  obtain ⟨hlow, hhigh⟩ := (Nat.log2_eq_iff (Nat.ne_of_gt hpos)).mp hm
  have hrest : (BitVec.ofNat 52 m).toNat = m - 2 ^ 52 := by
    rw [BitVec.toNat_ofNat]
    omega
  rw [BitVec.toNat_append, hrest, ← Nat.shiftLeft_add_eq_or_of_lt (by omega)]
  simp only [BitVec.toNat_ofNat]
  omega

theorem unpack_pack_normal (s : Sign) {m : Nat} (hm : m.log2 = 52) (hpos : 0 < m) {e : Int}
    (hlow : -1074 ≤ e) (hhigh : e ≤ 971) :
    (Float.Model.pack (.finite s m e hpos)).unpack = .finite s m e hpos := by
  -- The stored exponent lies strictly between 0 and 2047, which mark the numbers that are not normal.
  have hstored : ∃ b : Nat, (b : Int) = e + 1075 ∧ 0 < b ∧ b < 2047 := ⟨(e + 1075).toNat, by omega⟩
  obtain ⟨b, hb, hb0, hb1⟩ := hstored
  have hpack : UnpackedFloat.pack .binary64 (.finite s m e hpos) =
      packComponents .binary64 s (BitVec.ofNat 11 b) (BitVec.ofNat 52 m) := by
    have hbiased : (e + Format.exponentBias .binary64 + (52 : Nat)).toNat = b := by
      simp only [Format.exponentBias]
      omega
    simp only [UnpackedFloat.pack, hbiased, hm]
    rw [if_neg (by omega), if_pos (show 52 + 1 = Format.mantissaBits .binary64 from rfl)]
  have hexponent : (BitVec.ofNat 11 b).toNat = b := by
    rw [BitVec.toNat_ofNat]
    omega
  have hinfinite : BitVec.ofNat 11 b ≠ -1#11 := fun h => by
    have : b = 2047 := hexponent.symm.trans (congrArg BitVec.toNat h)
    omega
  have hsubnormal : BitVec.ofNat 11 b ≠ 0#11 := fun h => by
    have : b = 0 := hexponent.symm.trans (congrArg BitVec.toNat h)
    omega
  show UnpackedFloat.unpack .binary64 (UnpackedFloat.pack .binary64 (.finite s m e hpos)) = _
  simp only [hpack, UnpackedFloat.unpack, unpackMantissa_packComponents,
    unpackExponent_packComponents, ofBitVec_unpackSign, if_neg hinfinite, if_neg hsubnormal,
    hexponent, toNat_leading_append hm hpos]
  congr 1
  simp only [Format.exponentBias]
  omega

/-! ## Natural numbers -/

section

variable {n k : Nat} (hpos : 0 < n) (hk : n.log2 + k = 52)

include hpos hk

theorem log2_scaled : (n * 2 ^ k).log2 = 52 := by
  rw [log2_mul_two_pow (Nat.ne_of_gt hpos), hk]

theorem unpackedOfNat_eq (h : 0 < n * 2 ^ k) :
    UnpackedFloat.ofNat .binary64 n = .finite .positive (n * 2 ^ k) (-(k : Int)) h := by
  have hcompare : compare (n : Int) 0 = .gt := Int.compare_eq_gt.mpr (by omega)
  have htarget : Format.targetExponent .binary64 (totalExponent n 0) = -(k : Int) := by
    simp only [totalExponent, Format.targetExponent, Format.mantissaBits, Format.minExponent]
    omega
  have hup : decreaseExponent n 0 (-(k : Int)) = (n * 2 ^ k, -(k : Int)) := by
    simp [decreaseExponent, Nat.shiftLeft_eq]
  have hround := roundWithAccuracy_normal .positive (log2_scaled hpos hk) h 0 (e := -(k : Int)) (by omega)
  simpa [UnpackedFloat.ofNat, UnpackedFloat.ofInt, UnpackedFloat.normalize, UnpackedFloat.round, hcompare,
    htarget, hup] using hround

theorem lt_of_scaled : n < 2 ^ 53 := (Nat.log2_lt (Nat.ne_of_gt hpos)).mp (by omega)

/-- A word is held with its significand moved up to 53 bits. -/
theorem exact_toFloat (h : 0 < n * 2 ^ k) :
    exact n.toUInt64.toFloat = .finite .positive (n * 2 ^ k) (-(k : Int)) h := by
  have hn := lt_of_scaled hpos hk
  have hsame : n.toUInt64.toNat = n := Nat.mod_eq_of_lt (by omega)
  show (Float.Model.ofUInt64 n.toUInt64).unpack = _
  rw [Float.Model.ofUInt64, UnpackedFloat.ofUInt64, hsame, unpackedOfNat_eq hpos hk h]
  exact unpack_pack_normal .positive (log2_scaled hpos hk) h (by omega) (by omega)

/-- A natural number is held with its significand moved up to 53 bits. -/
theorem exact_ofNat (h : 0 < n * 2 ^ k) :
    exact (Float.ofNat n) = .finite .positive (n * 2 ^ k) (-(k : Int)) h := by
  have hm := log2_scaled hpos hk
  have hn := lt_of_scaled hpos hk
  have hone : (Float.ofBits 0x3FF0000000000000).toModel.unpack =
      .finite .positive (2 ^ 52) (-52) (by decide) := rfl
  -- A numeral is a product with a power of ten, here with the number 1.
  have hproduct : Float.ofNat n =
      .ofModel (.pack (.mul .binary64 (exact n.toUInt64.toFloat)
        (Float.ofBits 0x3FF0000000000000).toModel.unpack)) := by
    show Float.ofScientific n false 0 = _
    unfold Float.ofScientific
    rw [dif_pos ⟨hn, by decide⟩]
    rfl
  have hround : UnpackedFloat.mul .binary64 (.finite .positive (n * 2 ^ k) (-(k : Int)) h)
      (.finite .positive (2 ^ 52) (-52) (by decide)) = .finite .positive (n * 2 ^ k) (-(k : Int)) h :=
    roundWithAccuracy_normal .positive hm h 52 (by omega)
  rw [hproduct, exact_toFloat hpos hk h, hone, hround]
  exact unpack_pack_normal .positive hm h (by omega) (by omega)

end

theorem splitPoint_scaled (n k : Nat) : splitPoint (n * 2 ^ k) (-(k : Int)) = (n, 0) := by
  unfold splitPoint
  rcases Nat.eq_zero_or_pos k with rfl | hk
  · simp
  · rw [if_neg (by omega), Int.neg_neg, Int.toNat_natCast, Nat.pow_eq,
      Nat.mul_div_cancel _ (Nat.two_pow_pos k), Nat.mul_mod_left]

/-- A natural number below `2 ^ 53` is a number, and is read back as it was. -/
theorem natural?_ofNat {n : Nat} (hn : n < 2 ^ 53) : natural? (Float.ofNat n) = some n := by
  rcases Nat.eq_zero_or_pos n with rfl | hpos
  · decide +kernel
  · have hlog : n.log2 < 53 := (Nat.log2_lt (Nat.ne_of_gt hpos)).mpr hn
    obtain ⟨k, hk⟩ : ∃ k, n.log2 + k = 52 := ⟨52 - n.log2, by omega⟩
    unfold natural?
    rw [exact_ofNat hpos hk (Nat.mul_pos hpos (Nat.two_pow_pos k))]
    simp only [splitPoint_scaled, if_true]

end VirtualProcessor.Number
