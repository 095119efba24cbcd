import VirtualProcessor.Number.Stored
import VirtualProcessor.Proofs.Number.Whole

/-!
# Words as numbers

Line numbers travel through the machine as numbers: a jump holds its line as a literal, which is stored by
its bits, and a word is turned into a number and back. Nothing is lost on these ways:

* `toFloat_ofFloat`: a stored number is the number that was stored, for the bits of a number are put
  together from what it stands for (`pack_unpack`);
* `toFloat_eq_ofNat`, `toWord_ofNat`: a word is the natural number that it is, and is read back;
* `ofNat_le_ofNat`: numbers are ordered as the natural numbers they are.
-/

namespace VirtualProcessor.Number

open Float.Model Float.Model.UnpackedFloat

/-! ## The parts of a number -/

/-- The bits of a number are put together from the parts they are taken apart into. -/
theorem packComponents_unpack {f : Format} (b : BitVec f.numBits) :
    packComponents f (Sign.ofBitVec (unpackSign b)) (unpackExponent b) (unpackMantissa b) = b := by
  have hsign (v : BitVec 1) : (Sign.ofBitVec v).toBitVec = v := by
    revert v
    decide
  have hm := f.hm
  have he := f.he
  apply BitVec.eq_of_getLsbD_eq
  intro i hi
  simp only [Format.numBits] at hi
  simp only [packComponents, hsign, unpackSign, unpackExponent, unpackMantissa, BitVec.getLsbD_append,
    BitVec.getLsbD_cast, BitVec.getLsbD_extractLsb]
  split
  · rw [Nat.zero_add, Bool.and_eq_right_iff_imp.mpr]
    intro _
    simp only [decide_eq_true_eq]
    omega
  · split
    · rw [Nat.add_sub_cancel' (by omega), Bool.and_eq_right_iff_imp.mpr]
      intro _
      simp only [decide_eq_true_eq]
      omega
    · have hlast : i = f.mantissaBitsWithoutImplicit + f.exponentBits := by omega
      subst hlast
      simp

theorem toNat_leading {k : Nat} (m : BitVec k) : (1#1 ++ m).toNat = 2 ^ k + m.toNat := by
  rw [BitVec.toNat_append, ← Nat.shiftLeft_add_eq_or_of_lt m.isLt, Nat.shiftLeft_eq]
  simp

/-- A significand that fills its 53 bits is stored without the leading one. -/
theorem pack_normal (s : Sign) {e : BitVec 11} (m : BitVec 52) (he : e ≠ -1#11)
    (hpos : 0 < (1#1 ++ m).toNat) :
    UnpackedFloat.pack .binary64 (.finite s (1#1 ++ m).toNat (e.toNat - 1075) hpos) =
      packComponents .binary64 s e m := by
  have hm := m.isLt
  have hfinite : e.toNat ≠ 2047 := fun h => he (BitVec.eq_of_toNat_eq h)
  have hlog : (1#1 ++ m).toNat.log2 = 52 := by
    rw [Nat.log2_eq_iff (by omega), toNat_leading]
    omega
  have hexponent : ((e.toNat : Int) - 1075 + Format.exponentBias .binary64 + (52 : Nat)).toNat = e.toNat := by
    simp only [Format.exponentBias]
    omega
  have hmantissa : BitVec.ofNat 52 (1#1 ++ m).toNat = m := by
    rw [toNat_leading, BitVec.ofNat_add]
    simp
  simp only [UnpackedFloat.pack, hlog, hexponent]
  rw [if_neg (by omega), if_pos (show 52 + 1 = Format.mantissaBits .binary64 from rfl), hmantissa,
    BitVec.ofNat_toNat, BitVec.setWidth_eq]

/-- A shorter significand is stored as it is, with exponent 0. -/
theorem pack_subnormal (s : Sign) (m : BitVec 52) (hpos : 0 < m.toNat) :
    UnpackedFloat.pack .binary64 (.finite s m.toNat (-1074) hpos) = packComponents .binary64 s 0#11 m := by
  have hlog : m.toNat.log2 < 52 := (Nat.log2_lt (Nat.ne_of_gt hpos)).mpr m.isLt
  simp only [UnpackedFloat.pack]
  rw [if_neg (by decide), if_neg (by simp only [Format.mantissaBits]; omega)]
  simp

/-- A number is put together again from what it stands for. -/
theorem pack_unpack (x : Float.Model) : Float.Model.pack x.unpack = x := by
  obtain ⟨bits, hvalid⟩ := x
  have hparts := packComponents_unpack (f := .binary64) bits.toBitVec
  have hbits : UnpackedFloat.pack .binary64 (UnpackedFloat.unpack .binary64 bits.toBitVec) = bits.toBitVec := by
    unfold UnpackedFloat.unpack
    simp only
    split
    · rename_i he
      split
      · rename_i hm
        rw [he, hm] at hparts
        exact hparts
      · rename_i hm
        exact (hvalid.eq_packedNaN he hm).symm
    · rename_i hi
      split
      · rename_i he
        split
        · rename_i hm
          rw [he, hm] at hparts
          exact hparts
        · rename_i hm
          rw [he] at hparts
          simp only [he]
          exact (pack_subnormal _ _ _).trans hparts
      · rename_i he
        exact (pack_normal _ _ hi _).trans hparts
  simp only [Float.Model.pack, Float.Model.unpack, hbits]

/-- A stored number is the number that was stored. -/
theorem toFloat_ofFloat (x : Float) : (Stored.ofFloat x).toFloat = x := by
  show Float.ofModel (Float.Model.pack x.toModel.unpack) = x
  rw [pack_unpack]

/-! ## Words among the numbers -/

/-- A natural number is 0 or can be moved up to a significand of 53 bits. -/
theorem eq_zero_or_scaled {n : Nat} (hn : n < 2 ^ 53) :
    n = 0 ∨ 0 < n ∧ ∃ k, n.log2 + k = 52 := by
  rcases Nat.eq_zero_or_pos n with h | h
  · exact .inl h
  · have hlog : n.log2 < 53 := (Nat.log2_lt (Nat.ne_of_gt h)).mpr hn
    exact .inr ⟨h, 52 - n.log2, by omega⟩

/-- A word is the natural number that it is. -/
theorem toFloat_eq_ofNat (w : UInt32) : w.toFloat = Float.ofNat w.toNat := by
  have hw := w.toNat_lt
  obtain h | ⟨hpos, k, hk⟩ := eq_zero_or_scaled (show w.toNat < 2 ^ 53 by omega)
  · rw [show w = 0 from UInt32.toNat_inj.mp h]
    rfl
  have h := Nat.mul_pos hpos (Nat.two_pow_pos k)
  have hmodel : Float.ofModel (.pack (exact (Float.ofNat w.toNat))) = Float.ofNat w.toNat :=
    congrArg Float.ofModel (pack_unpack _)
  rw [← hmodel, exact_ofNat hpos hk h, ← unpackedOfNat_eq hpos hk h]
  rfl

/-- Numbers are ordered as the natural numbers they are. -/
theorem ofNat_le_ofNat {a b : Nat} (hab : a ≤ b) (hb : b < 2 ^ 53) : Float.ofNat a ≤ Float.ofNat b := by
  show decide (UnpackedFloat.le (exact (Float.ofNat a)) (exact (Float.ofNat b)) = true) = true
  rw [decide_eq_true_iff]
  have hzero : exact (Float.ofNat 0) = .zero .positive := rfl
  obtain rfl | ⟨hpos', k', hk'⟩ := eq_zero_or_scaled hb
  · rw [Nat.le_zero.mp hab, hzero]
    rfl
  rw [exact_ofNat hpos' hk' (Nat.mul_pos hpos' (Nat.two_pow_pos k'))]
  obtain rfl | ⟨hpos, k, hk⟩ := eq_zero_or_scaled (Nat.lt_of_le_of_lt hab hb)
  · rw [hzero]
    rfl
  rw [exact_ofNat hpos hk (Nat.mul_pos hpos (Nat.two_pow_pos k))]
  have hlog : a.log2 ≤ b.log2 :=
    (Nat.le_log2 (Nat.ne_of_gt hpos')).mpr (Nat.le_trans (Nat.log2_self_le (Nat.ne_of_gt hpos)) hab)
  show ((compare (-(k : Int)) (-(k' : Int))).then (compare (a * 2 ^ k) (b * 2 ^ k'))).isLE = true
  rcases Nat.lt_or_ge k' k with hlt | hge
  · rw [Int.compare_eq_lt.mpr (by omega)]
    rfl
  · obtain rfl : k = k' := by omega
    rw [Int.compare_eq_eq.mpr rfl]
    exact Nat.isLE_compare.mpr (Nat.mul_le_mul_right _ hab)

/-- A natural number that fits a word is read back as that word. -/
theorem toWord_ofNat {n : Nat} (hn : n < 2 ^ 32) : toWord (Float.ofNat n) = UInt32.ofNat n := by
  obtain rfl | ⟨hpos, k, hk⟩ := eq_zero_or_scaled (show n < 2 ^ 53 by omega)
  · rfl
  have h := Nat.mul_pos hpos (Nat.two_pow_pos k)
  have hround : roundToInt .positive (n * 2 ^ k) (-(k : Int)) = n := by
    have hkeep : (-(k : Int) - 0).toNat = 0 := by omega
    have hshift : (0 - (-(k : Int) - ((0 : Nat) : Int))).toNat = k := by omega
    simp only [roundToInt, decreaseExponent, hkeep, Nat.shiftLeft_zero, shiftToExponent, hshift,
      ExtendedMantissa.ofMantissaAndAccuracy, shiftRight_mul_two_pow]
    rfl
  show UInt32.ofNatClamp ((exact (Float.ofNat n)).toInt 0 (UInt32.size - 1)).toNat = _
  rw [exact_ofNat hpos hk h]
  show UInt32.ofNatClamp (roundToInt .positive (n * 2 ^ k) (-(k : Int))).toNat = _
  rw [hround, Int.toNat_natCast, UInt32.ofNatClamp, dif_pos (show n < UInt32.size from hn),
    UInt32.ofNatLT_eq_ofNat]

end VirtualProcessor.Number
