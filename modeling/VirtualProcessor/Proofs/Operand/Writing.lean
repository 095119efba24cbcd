import VirtualProcessor.Proofs.Number.Word
import VirtualProcessor.Proofs.Operand.Grammar

/-!
# Operands as they are written

An operand that can be read is written as it can be read again (`spells_text`), infinite literals apart. A literal is
written with all places of the decimal that was chosen for it, whose value is that decimal (`magnitude_positional`), and
the nearest number to the decimal is the literal (`exists_magnitude_of_chars`).
-/

namespace VirtualProcessor

open Number (Stored Decimal IsNearest Layout exact sign?)
open Float.Model.UnpackedFloat (Sign)

namespace Numeral

/-! ## Digits -/

theorem digit_digitChar {base d : Nat} (hd : d < base) (hbase : base ≤ 16) : Digit base (digitChar d) d := by
  have htable : ∀ d : Fin 16, upperDigits[d.val]? = some (digitChar d.val) := by decide
  exact ⟨hd, .inr (htable ⟨d, by omega⟩)⟩

theorem denotes_digitChar {base d : Nat} (hd : d < base) (hbase : base ≤ 16) : Denotes base [digitChar d] d :=
  ⟨[d], .cons (digit_digitChar hd hbase) .nil, Nat.ofDigits_singleton.symm⟩

theorem denotes_digits {b : Nat} (hb : b + 2 ≤ 16) (n : Nat) : Denotes (b + 2) (digits b n) n := by
  fun_induction digits b n with
  | case1 n hn => exact denotes_digitChar hn hb
  | case2 n hn ih =>
    refine denotes_append.mpr ⟨_, _, ih, denotes_digitChar (Nat.mod_lt n (by omega)) hb, ?_⟩
    rw [List.length_singleton, pow_one, Nat.div_add_mod]

theorem digits_ne_nil (b n : Nat) : digits b n ≠ [] := by
  rw [digits]
  split <;> simp

theorem denotes_toDigits (n : Nat) : Denotes 10 (Nat.toDigits 10 n) n := by
  have hdigits : ∀ c ∈ Nat.toDigits 10 n, c.isDigit := fun c hc =>
    Nat.isDigit_of_mem_toDigits (by decide) (by decide) hc
  have hrun := continue?_decimal hdigits 0
  rw [Nat.ofDigitChars_ten_toDigits] at hrun
  exact (run?_iff fun _ _ => decimalDigit?_iff).mp hrun

theorem denotes_zeros (k : Nat) : Denotes 10 (List.replicate k '0') 0 := by
  induction k with
  | zero => exact denotes_nil
  | succ k ih =>
    have hzero : Denotes 10 ['0'] 0 := denotes_digitChar (d := 0) (by decide) (by decide)
    rw [List.replicate_succ']
    exact denotes_append.mpr ⟨0, 0, ih, hzero, rfl⟩

end Numeral

namespace Operand

/-! ## Decimals with all their places -/

/-- Digits with a point before the last `k` of them. -/
theorem magnitude_point {cs : List Char} {n k : Nat} (h : Numeral.Denotes 10 cs n) (hk : k < cs.length) :
    Magnitude (cs.take (cs.length - k) ++ '.' :: cs.drop (cs.length - k)) (Decimal.mk n (-(k : Int))).value := by
  have hbehind : (cs.drop (cs.length - k)).length = k := by
    rw [List.length_drop]
    omega
  have hfront : cs.take (cs.length - k) ≠ [] := by
    rw [← List.length_pos_iff, List.length_take]
    omega
  rw [← List.take_append_drop (cs.length - k) cs] at h
  obtain ⟨a, b, hwhole, hfraction, rfl⟩ := Numeral.denotes_append.mp h
  generalize cs.take (cs.length - k) = whole at hwhole hfront ⊢
  generalize cs.drop (cs.length - k) = fraction at hfraction hbehind ⊢
  subst hbehind
  rw [value_of_fraction]
  exact .mk hfront hwhole (.point hfraction)

theorem magnitude_positional (d : Decimal) : Magnitude (Layout.positional false d) d.value := by
  have hdigits : Numeral.Denotes 10 (Numeral.decimal d.digits) d.digits := Numeral.denotes_digits (by decide) d.digits
  have hne : Numeral.decimal d.digits ≠ [] := Numeral.digits_ne_nil 8 d.digits
  obtain ⟨n, exponent⟩ := d
  unfold Layout.positional
  simp only at hdigits hne ⊢
  generalize Numeral.decimal n = cs at hdigits hne
  split
  · rename_i hexponent
    obtain ⟨k, rfl⟩ := Int.eq_ofNat_of_zero_le hexponent
    have hall := Numeral.denotes_append.mpr ⟨_, _, hdigits, Numeral.denotes_zeros k, rfl⟩
    have hvalue : (Decimal.mk n k).value = (10 ^ (List.replicate k '0').length * n + 0 : Nat) + 0 := by
      rw [Decimal.value, zpow_natCast, List.length_replicate]
      push_cast
      ring
    rw [hvalue]
    exact .mk (by simp [hne]) hall .none
  · rename_i hexponent
    obtain ⟨k, rfl⟩ : ∃ k : Nat, exponent = -(k : Int) := ⟨(-exponent).toNat, by omega⟩
    rw [Int.neg_neg, Int.toNat_natCast]
    -- As many zeros stand in front as a digit before the point needs.
    have hpadded := Numeral.denotes_append.mpr ⟨_, _, Numeral.denotes_zeros (k + 1 - cs.length), hdigits, rfl⟩
    rw [Nat.mul_zero, Nat.zero_add] at hpadded
    refine magnitude_point hpadded ?_
    rw [List.length_append, List.length_replicate]
    omega

/-! ## Literals -/

theorem exact_abs_finite {x : Float} {s : Sign} {m : Nat} {e : Int} {hm : 0 < m} (hx : exact x = .finite s m e hm) :
    exact x.abs = .finite .positive m e hm := by
  have hbounds := Number.exact_bounds hx
  have hsign : sign? (exact x) = some s := by rw [hx]; rfl
  rw [Number.exact_abs hsign, hx]
  show Number.ofParts .positive m e = _
  unfold Number.ofParts
  rw [if_neg (by omega), dif_pos hm]

/-- A number that is not infinite is written as a decimal to which it is nearest. -/
theorem exists_magnitude_of_chars {x : Float} {s : Sign} (hsign : sign? (exact x) = some s)
    (hfinite : exact x ≠ .infinity s) :
    ∃ cs q, Layout.plain.chars x = Layout.signChars s ++ cs ∧ Magnitude cs q ∧ IsNearest s q x := by
  unfold Layout.chars
  cases hx : exact x with
  | notANumber =>
    rw [hx] at hsign
    cases hsign
  | infinity t =>
    rw [hx] at hsign hfinite
    cases hsign
    exact absurd rfl hfinite
  | zero t =>
    rw [hx] at hsign
    cases hsign
    have hnearest := Number.isNearest_reach (x := x) (s := s) (by rw [hx]; rfl)
    have hvalue : Number.reach (exact x) = (Decimal.mk 0 0).value := by
      rw [hx]
      exact (zero_mul _).trans (zero_mul _).symm
    rw [hvalue] at hnearest
    exact ⟨_, _, rfl, magnitude_positional ⟨0, 0⟩, hnearest⟩
  | finite t m e hm =>
    have hsign' := hsign
    rw [hx] at hsign'
    cases hsign'
    have habs := exact_abs_finite hx
    refine ⟨_, _, rfl, magnitude_positional (Decimal.shortest .up x.abs m e), ?_⟩
    have hnearest := Number.isNearest_toFloat (Decimal.shortest .up x.abs m e)
    rw [Number.toFloat_shortest .up habs] at hnearest
    generalize (Decimal.shortest .up x.abs m e).value = q at hnearest ⊢
    cases s with
    | positive => rwa [Number.abs_of_positive hsign] at hnearest
    | negative =>
      have hneg := hnearest.neg
      rwa [Number.neg_abs hsign] at hneg

/-! ## Operands -/

/-- Whether an operand is an infinite literal, which has no text that can be read. -/
def isInfinite : Operand → Bool
  | literal value => value.toFloat.isInf
  | _ => false

/-- An operand that can be read, and is no infinite literal, is written as it can be read again. -/
theorem spells_text {cs : List Char} {op : Operand} (h : Spells cs op) (hfinite : op.isInfinite = false) :
    Spells op.text.toList op := by
  cases h with
  | returnAddress => exact .returnAddress
  | stackPointer => exact .stackPointer
  | @register cs n hne h hn =>
    have hsame : (UInt32.ofNat n).toNat = n := Nat.mod_eq_of_lt hn
    rw [text, hsame, String.toList_append, toList_toString]
    exact .register Nat.toDigits_ne_nil (Numeral.denotes_toDigits n) hn
  | @device cs cs' slot index separator hne hslot hlt hseparator hne' hindex hlt' =>
    have hsame : (UInt16.ofNat slot).toNat = slot := Nat.mod_eq_of_lt hlt
    have hsame' : (UInt16.ofNat index).toNat = index := Nat.mod_eq_of_lt hlt'
    rw [text, hsame, hsame', String.toList_append, String.toList_append, String.toList_append, toList_toString,
      toList_toString, List.append_assoc, List.append_assoc]
    exact .device Nat.toDigits_ne_nil (Numeral.denotes_toDigits slot) hlt (.inl rfl)
      Nat.toDigits_ne_nil (Numeral.denotes_toDigits index) hlt'
  | @hexLiteral cs n hne h hn =>
    have hsame : (Int64.ofNat n).toUInt64.toNat = n := Nat.mod_eq_of_lt (by omega)
    have hdigits : (String.ofList (Numeral.hexadecimal n)).toList = Numeral.digits 14 n := String.toList_ofList
    rw [text, hsame, String.toList_append, hdigits]
    exact .hexLiteral (Numeral.digits_ne_nil 14 n) (Numeral.denotes_digits (by decide) n) hn
  | @literal s cs q x h hx =>
    have hnotInfinite : exact x ≠ .infinity s := by
      intro hinfinite
      have hisInf : (exact x).isInf = false := by
        rw [isInfinite, Number.toFloat_ofFloat] at hfinite
        exact hfinite
      rw [hinfinite] at hisInf
      cases hisInf
    obtain ⟨cs', q', hchars, hmagnitude, hnearest⟩ := exists_magnitude_of_chars hx.sign hnotInfinite
    rw [text, Number.toFloat_ofFloat, Number.text, String.toList_ofList, hchars]
    exact .literal hmagnitude hnearest

theorem ofWord?_text {w : String} {op : Operand} (h : ofWord? w = some op) (hfinite : op.isInfinite = false) :
    ofWord? op.text = some op :=
  ofChars?_of_spells (spells_text (spells_of_ofChars? h) hfinite)

end Operand

end VirtualProcessor
