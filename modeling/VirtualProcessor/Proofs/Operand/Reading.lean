import VirtualProcessor.Operand.Reading

/-!
# Words that are operands

* `isOperandChar_of_ofWord?`: the characters of an operand are letters, digits, points, underscores and minus
  signs, so no operand is taken for a label or for the name of an alias;
* `ofWord?_toString`: a natural number that is written in decimal is read as the literal of that number.
-/

namespace VirtualProcessor

open Number (Stored Decimal)

namespace Numeral

/-! ## Runs of digits -/

theorem isSome_of_continue? {digit? : Char → Option Nat} {base n : Nat} {cs : List Char} {value : Nat}
    (h : continue? digit? base n cs = some value) : ∀ c ∈ cs, (digit? c).isSome := by
  induction cs generalizing n with
  | nil => intro c hc; cases hc
  | cons c cs ih =>
    rw [continue?] at h
    cases hd : digit? c with
    | none =>
      rw [hd] at h
      cases h
    | some d =>
      rw [hd] at h
      intro c' hc'
      rcases List.mem_cons.mp hc' with rfl | hc'
      · rw [hd]
        rfl
      · exact ih h c' hc'

theorem isDigit_of_decimalDigit? {c : Char} (h : (decimalDigit? c).isSome) : c.isDigit := by
  unfold decimalDigit? at h
  split at h
  · rename_i hc
    simp only [Char.isDigit, Bool.and_eq_true, decide_eq_true_eq]
    exact hc
  · cases h

theorem decimalDigit?_of_isDigit {c : Char} (h : c.isDigit) : decimalDigit? c = some (c.toNat - 48) := by
  simp only [Char.isDigit, Bool.and_eq_true, decide_eq_true_eq] at h
  exact if_pos h

/-- Letters and digits by their codes. -/
theorem isAlphanum_iff {c : Char} :
    c.isAlphanum = true ↔ (65 ≤ c.toNat ∧ c.toNat ≤ 90 ∨ 97 ≤ c.toNat ∧ c.toNat ≤ 122) ∨
      48 ≤ c.toNat ∧ c.toNat ≤ 57 := by
  show (decide (65 ≤ c.val ∧ c.val ≤ 90) || (decide (97 ≤ c.val) && decide (c.val ≤ 122)) ||
    (decide (48 ≤ c.val) && decide (c.val ≤ 57))) = true ↔ _
  simp only [Bool.or_eq_true, decide_eq_true_eq, Bool.and_eq_true]
  exact Iff.rfl

theorem isAlphanum_of_hexDigit? {c : Char} (h : (hexDigit? c).isSome) : c.isAlphanum := by
  unfold hexDigit? at h
  rw [isAlphanum_iff]
  split at h
  · rename_i hc
    exact .inr hc
  split at h
  · rename_i hc
    exact .inl (.inr ⟨hc.1, Nat.le_trans hc.2 (by decide)⟩)
  split at h
  · rename_i hc
    exact .inl (.inl ⟨hc.1, Nat.le_trans hc.2 (by decide)⟩)
  · cases h

/-- Digits stand for the number that they are read as elsewhere. -/
theorem continue?_decimal {cs : List Char} (h : ∀ c ∈ cs, c.isDigit) (n : Nat) :
    continue? decimalDigit? 10 n cs = some (Nat.ofDigitChars 10 cs n) := by
  induction cs generalizing n with
  | nil => rfl
  | cons c cs ih =>
    rw [continue?, decimalDigit?_of_isDigit (h c List.mem_cons_self), Nat.ofDigitChars_cons]
    exact ih (fun c hc => h c (List.mem_cons_of_mem _ hc)) _

end Numeral

namespace Operand

/-! ## The characters of an operand -/

/-- The characters that operands are written with. -/
def isOperandChar (c : Char) : Bool := c.isAlphanum || c == '.' || c == '_' || c == '-'

theorem isOperandChar_of_isAlphanum {c : Char} (h : c.isAlphanum) : isOperandChar c := by
  simp only [isOperandChar, h, Bool.true_or]

theorem isOperandChar_of_isDigit {c : Char} (h : c.isDigit) : isOperandChar c :=
  isOperandChar_of_isAlphanum (by simp only [Char.isAlphanum, h, Bool.or_true])

theorem isOperandChar_of_decimal? {cs : List Char} {n : Nat} (h : Numeral.decimal? cs = some n) :
    ∀ c ∈ cs, isOperandChar c := by
  unfold Numeral.decimal? at h
  split at h
  · cases h
  · intro c hc
    exact isOperandChar_of_isDigit (Numeral.isDigit_of_decimalDigit? (Numeral.isSome_of_continue? h c hc))

theorem isOperandChar_of_hexadecimal? {cs : List Char} {n : Nat} (h : Numeral.hexadecimal? cs = some n) :
    ∀ c ∈ cs, isOperandChar c := by
  unfold Numeral.hexadecimal? at h
  split at h
  · cases h
  · intro c hc
    exact isOperandChar_of_isAlphanum (Numeral.isAlphanum_of_hexDigit? (Numeral.isSome_of_continue? h c hc))

theorem eq_some_of_below? {bound : Nat} {value : Option Nat} {n : Nat}
    (h : Numeral.below? bound value = some n) : value = some n := (Option.filter_eq_some_iff.mp h).1

theorem isOperandChar_of_half? {cs : List Char} {n : UInt16} (h : half? cs = some n) :
    ∀ c ∈ cs, isOperandChar c := by
  obtain ⟨value, hv, -⟩ := Option.map_eq_some_iff.mp h
  exact isOperandChar_of_decimal? (eq_some_of_below? hv)

theorem isOperandChar_of_device? {cs : List Char} {op : Operand} (h : device? cs = some op) :
    ∀ c ∈ cs, isOperandChar c := by
  unfold device? at h
  split at h
  · cases h
  · rename_i s after hcs
    split at h
    · rename_i slot index hslot hindex
      intro c hc
      rw [← List.takeWhile_append_dropWhile (p := (!isSeparator ·)) (l := cs), hcs] at hc
      rcases List.mem_append.mp hc with hc | hc
      · exact isOperandChar_of_half? hslot c hc
      · rcases List.mem_cons.mp hc with rfl | hc
        · have hs := List.head?_dropWhile_not (!isSeparator ·) cs
          rw [hcs] at hs
          simp only [List.head?_cons, Bool.not_eq_false'] at hs
          rcases Bool.or_eq_true .. ▸ hs with hs | hs
          · rw [eq_of_beq hs]
            rfl
          · rw [eq_of_beq hs]
            rfl
        · exact isOperandChar_of_half? hindex c hc
    · cases h

theorem isOperandChar_of_magnitude? {cs : List Char} {x : Float} (h : magnitude? cs = some x) :
    ∀ c ∈ cs, isOperandChar c := by
  unfold magnitude? at h
  simp only at h
  split at h
  · cases h
  · obtain ⟨n, hn, -⟩ := Option.map_eq_some_iff.mp h
    have hdigits := Numeral.isSome_of_continue? hn
    intro c hc
    by_cases hpoint : c = '.'
    · subst hpoint
      rfl
    · refine isOperandChar_of_isDigit (Numeral.isDigit_of_decimalDigit? (hdigits c ?_))
      rw [← List.takeWhile_append_dropWhile (p := (· != '.')) (l := cs)] at hc
      rcases List.mem_append.mp hc with hc | hc
      · exact List.mem_append_left _ hc
      · refine List.mem_append_right _ ?_
        have hhead := List.head?_dropWhile_not (· != '.') cs
        cases he : cs.dropWhile (· != '.') with
        | nil =>
          rw [he] at hc
          cases hc
        | cons d after =>
          rw [he] at hc hhead
          simp only [List.head?_cons, bne_eq_false_iff_eq] at hhead
          rcases List.mem_cons.mp hc with rfl | hc
          · exact absurd hhead hpoint
          · exact hc

theorem isOperandChar_of_ofChars? {cs : List Char} {op : Operand} (h : ofChars? cs = some op) :
    ∀ c ∈ cs, isOperandChar c := by
  unfold ofChars? at h
  split at h
  · simp [isOperandChar]
  · simp [isOperandChar]
  · rename_i cs _
    obtain ⟨n, hn, -⟩ := Option.map_eq_some_iff.mp h
    exact List.forall_mem_cons.mpr ⟨by decide, isOperandChar_of_decimal? (eq_some_of_below? hn)⟩
  · exact List.forall_mem_cons.mpr ⟨by decide, isOperandChar_of_device? h⟩
  · obtain ⟨n, hn, -⟩ := Option.map_eq_some_iff.mp h
    exact List.forall_mem_cons.mpr ⟨by decide, List.forall_mem_cons.mpr
      ⟨by decide, isOperandChar_of_hexadecimal? (eq_some_of_below? hn)⟩⟩
  · obtain ⟨x, hx, -⟩ := Option.map_eq_some_iff.mp h
    unfold decimal? at hx
    split at hx
    · obtain ⟨y, hy, -⟩ := Option.map_eq_some_iff.mp hx
      exact List.forall_mem_cons.mpr ⟨by decide, isOperandChar_of_magnitude? hy⟩
    · exact isOperandChar_of_magnitude? hx

/-- The characters of an operand are letters, digits, points, underscores and minus signs. -/
theorem isOperandChar_of_ofWord? {w : String} (h : (ofWord? w).isSome) : ∀ c ∈ w.toList, isOperandChar c := by
  obtain ⟨op, hop⟩ := Option.isSome_iff_exists.mp h
  exact isOperandChar_of_ofChars? hop

/-! ## Numbers -/

theorem magnitude?_digits {cs : List Char} (h₀ : cs ≠ []) (h : ∀ c ∈ cs, c.isDigit) :
    magnitude? cs = some (Float.ofNat (Nat.ofDigitChars 10 cs 0)) := by
  have hpoint : ∀ c ∈ cs, (c != '.') = true := by
    intro c hc
    rw [bne_iff_ne]
    rintro rfl
    exact absurd (h _ hc) (by decide)
  have hwhole : (cs ++ []).takeWhile (· != '.') = cs ++ [] := List.takeWhile_append_of_pos hpoint
  have hfraction : (cs ++ []).dropWhile (· != '.') = [] := List.dropWhile_append_of_pos hpoint
  rw [List.append_nil] at hwhole hfraction
  unfold magnitude?
  simp only [hwhole, hfraction, List.drop_nil, List.append_nil]
  rw [if_neg (by simpa using h₀), Numeral.run?, Numeral.continue?_decimal h]
  show some (Float.ofScientific (Nat.ofDigitChars 10 cs 0 * 1) false 0) = _
  rw [Nat.mul_one]
  rfl

/-- What has no letters is a decimal, if anything. -/
theorem ofChars?_decimal {cs : List Char} (h : ∀ c ∈ cs, c.isDigit ∨ c = '.' ∨ c = '-') :
    ofChars? cs = (decimal? cs).map fun x => literal (Stored.ofFloat x) := by
  have hletter {c : Char} (hc : c ∈ cs) (hnot : ¬ (c.isDigit ∨ c = '.' ∨ c = '-')) : False := hnot (h c hc)
  unfold ofChars?
  split
  · exact (hletter (c := 'r') List.mem_cons_self (by decide)).elim
  · exact (hletter (c := 's') List.mem_cons_self (by decide)).elim
  · exact (hletter (c := 'r') List.mem_cons_self (by decide)).elim
  · exact (hletter (c := 'd') List.mem_cons_self (by decide)).elim
  · exact (hletter (c := 'x') (by simp) (by decide)).elim
  · rfl

theorem toList_toString (n : Nat) : (toString n).toList = Nat.toDigits 10 n := Nat.toList_repr

theorem ofWord?_toString (n : Nat) : ofWord? (toString n) = some (literal (Stored.ofFloat (Float.ofNat n))) := by
  have hdigits : ∀ c ∈ Nat.toDigits 10 n, c.isDigit := fun c hc =>
    Nat.isDigit_of_mem_toDigits (by decide) (by decide) hc
  have hvalue := magnitude?_digits Nat.toDigits_ne_nil hdigits
  rw [Nat.ofDigitChars_ten_toDigits] at hvalue
  rw [ofWord?, toList_toString]
  generalize Nat.toDigits 10 n = cs at hdigits hvalue ⊢
  rw [ofChars?_decimal fun c hc => .inl (hdigits c hc)]
  unfold decimal?
  split
  · exact absurd (hdigits '-' List.mem_cons_self) (by decide)
  · rw [hvalue]
    rfl

end Operand

end VirtualProcessor
