import VirtualProcessor.Proofs.Number.Decimal
import VirtualProcessor.Proofs.Operand.Reading

/-!
# The grammar of operands

The words that are operands, and which operand each of them is, without regard to how they are read: `Spells` has a
rule for each kind of operand. Numbers are runs of digits with their positional value (`Denotes`), and a decimal is the
number nearest to its value.

* `ofWord?_iff_spells`: a word is read as an operand if and only if the grammar says so.
-/

namespace VirtualProcessor

open Number (Stored Decimal IsNearest Layout)
open Float.Model.UnpackedFloat (Sign)

namespace Numeral

/-! ## Runs of digits -/

def lowerDigits : List Char := "0123456789abcdef".toList

def upperDigits : List Char := "0123456789ABCDEF".toList

/-- The character is the digit of value `d`, in either case. -/
structure Digit (base : Nat) (c : Char) (d : Nat) : Prop where
  lt : d < base
  place : lowerDigits[d]? = some c ∨ upperDigits[d]? = some c

/-- The characters are the digits, the most significant one first, of the number `n`. -/
def Denotes (base : Nat) (cs : List Char) (n : Nat) : Prop :=
  ∃ ds, List.Forall₂ (Digit base) cs ds ∧ n = Nat.ofDigits base ds.reverse

section

variable {c : Char} {d : Nat}

/-- Characters that stand in a table in the order of their codes are found by them. -/
theorem getElem?_of_code (table : List Char) (place first count : Nat)
    (htable : ∀ d : Fin count, table[place + d]? = some (Char.ofNat (first + d)))
    (hlow : first ≤ c.toNat) (hhigh : c.toNat < first + count) (hd : d = place + (c.toNat - first)) :
    table[d]? = some c := by
  rw [hd, htable ⟨c.toNat - first, by omega⟩]
  show some (Char.ofNat (first + (c.toNat - first))) = some c
  rw [Nat.add_sub_cancel' hlow, Char.ofNat_toNat]

theorem digit_of_decimalDigit? (h : decimalDigit? c = some d) : Digit 10 c d := by
  unfold decimalDigit? at h
  split at h
  · rename_i hc
    cases h
    have hlow : 48 ≤ c.toNat := hc.1
    have hhigh : c.toNat ≤ 57 := hc.2
    exact ⟨by omega, .inl (getElem?_of_code lowerDigits 0 48 10 (by decide) hlow (by omega) (by omega))⟩
  · cases h

theorem digit_of_hexDigit? (h : hexDigit? c = some d) : Digit 16 c d := by
  unfold hexDigit? at h
  split at h
  · obtain ⟨hd, hplace⟩ := digit_of_decimalDigit? ((if_pos ‹_›).trans h)
    exact ⟨by omega, hplace⟩
  split at h
  · rename_i hc
    cases h
    have hlow : 97 ≤ c.toNat := hc.1
    have hhigh : c.toNat ≤ 102 := hc.2
    exact ⟨by omega, .inl (getElem?_of_code lowerDigits 10 97 6 (by decide) hlow (by omega) (by omega))⟩
  split at h
  · rename_i hc
    cases h
    have hlow : 65 ≤ c.toNat := hc.1
    have hhigh : c.toNat ≤ 70 := hc.2
    exact ⟨by omega, .inr (getElem?_of_code upperDigits 10 65 6 (by decide) hlow (by omega) (by omega))⟩
  · cases h

/-- A digit is read as its value, if those of both tables are. -/
theorem eq_some_of_digit {digit? : Char → Option Nat} {base : Nat}
    (htables : ∀ d : Fin base, lowerDigits[d.val]?.bind digit? = some d.val ∧
      upperDigits[d.val]?.bind digit? = some d.val) (h : Digit base c d) : digit? c = some d := by
  obtain ⟨hlower, hupper⟩ := htables ⟨d, h.lt⟩
  rcases h.place with h | h
  · rwa [h] at hlower
  · rwa [h] at hupper

theorem decimalDigit?_iff : decimalDigit? c = some d ↔ Digit 10 c d :=
  ⟨digit_of_decimalDigit?, eq_some_of_digit (by decide)⟩

theorem hexDigit?_iff : hexDigit? c = some d ↔ Digit 16 c d :=
  ⟨digit_of_hexDigit?, eq_some_of_digit (by decide)⟩

end

section

variable {base n : Nat} {cs : List Char}

theorem ofDigits_reverse_append (base : Nat) (xs ys : List Nat) : Nat.ofDigits base (xs ++ ys).reverse =
    base ^ ys.length * Nat.ofDigits base xs.reverse + Nat.ofDigits base ys.reverse := by
  rw [List.reverse_append, Nat.ofDigits_append, List.length_reverse, Nat.add_comm]

theorem denotes_nil : Denotes base [] 0 := ⟨[], .nil, rfl⟩

theorem denotes_cons {c : Char} : Denotes base (c :: cs) n ↔
    ∃ d value, Digit base c d ∧ Denotes base cs value ∧ n = base ^ cs.length * d + value := by
  have hvalue (d : Nat) (ds : List Nat) :
      Nat.ofDigits base (d :: ds).reverse = base ^ ds.length * d + Nat.ofDigits base ds.reverse := by
    simpa using ofDigits_reverse_append base [d] ds
  constructor
  · rintro ⟨_, hds, rfl⟩
    cases hds with
    | cons hd hds => exact ⟨_, _, hd, ⟨_, hds, rfl⟩, by rw [hds.length_eq, hvalue]⟩
  · rintro ⟨d, _, hd, ⟨ds, hds, rfl⟩, rfl⟩
    exact ⟨d :: ds, .cons hd hds, by rw [hds.length_eq, hvalue]⟩

/-- A run of digits that continues one of value `start`. -/
theorem continue?_iff {digit? : Char → Option Nat} (hdigit : ∀ c d, digit? c = some d ↔ Digit base c d) {start : Nat} :
    continue? digit? base start cs = some n ↔
      ∃ value, Denotes base cs value ∧ n = base ^ cs.length * start + value := by
  induction cs generalizing start with
  | nil =>
    rw [continue?, Option.some_inj]
    constructor
    · rintro rfl
      exact ⟨0, denotes_nil, by simp⟩
    · rintro ⟨value, ⟨ds, hds, rfl⟩, rfl⟩
      cases hds
      simp
  | cons c cs ih =>
    rw [continue?, List.length_cons, pow_succ]
    constructor
    · intro h
      cases hc : digit? c with
      | none =>
        rw [hc] at h
        cases h
      | some d =>
        rw [hc] at h
        obtain ⟨value, hvalue, rfl⟩ := ih.mp h
        exact ⟨_, denotes_cons.mpr ⟨d, value, (hdigit c d).mp hc, hvalue, rfl⟩, by ring⟩
    · rintro ⟨_, hall, rfl⟩
      obtain ⟨d, value, hd, hvalue, rfl⟩ := denotes_cons.mp hall
      rw [(hdigit c d).mpr hd]
      exact ih.mpr ⟨value, hvalue, by ring⟩

theorem run?_iff {digit? : Char → Option Nat} (hdigit : ∀ c d, digit? c = some d ↔ Digit base c d) :
    run? digit? base cs = some n ↔ Denotes base cs n := by
  rw [run?, continue?_iff hdigit]
  simp

theorem eq_some_of_nonempty_iff {α : Type} {value : Option α} {a : α} :
    (if cs.isEmpty then none else value) = some a ↔ cs ≠ [] ∧ value = some a := by
  cases cs <;> simp

theorem decimal?_iff : decimal? cs = some n ↔ cs ≠ [] ∧ Denotes 10 cs n := by
  rw [decimal?, eq_some_of_nonempty_iff, run?_iff fun _ _ => decimalDigit?_iff]

theorem hexadecimal?_iff : hexadecimal? cs = some n ↔ cs ≠ [] ∧ Denotes 16 cs n := by
  rw [hexadecimal?, eq_some_of_nonempty_iff, run?_iff fun _ _ => hexDigit?_iff]

theorem below?_iff {bound : Nat} {value : Option Nat} : below? bound value = some n ↔ value = some n ∧ n < bound := by
  rw [below?, Option.filter_eq_some_iff, decide_eq_true_eq]

/-- Digits behind others. -/
theorem denotes_append {cs' : List Char} : Denotes base (cs ++ cs') n ↔
    ∃ a b, Denotes base cs a ∧ Denotes base cs' b ∧ n = base ^ cs'.length * a + b := by
  constructor
  · rintro ⟨ds, hds, rfl⟩
    have hfirst := List.forall₂_take cs.length hds
    have hlast := List.forall₂_drop cs.length hds
    rw [List.take_left] at hfirst
    rw [List.drop_left] at hlast
    refine ⟨_, _, ⟨_, hfirst, rfl⟩, ⟨_, hlast, rfl⟩, ?_⟩
    rw [hlast.length_eq, ← ofDigits_reverse_append, List.take_append_drop]
  · rintro ⟨a, b, ⟨xs, hxs, rfl⟩, ⟨ys, hys, rfl⟩, rfl⟩
    refine ⟨xs ++ ys, List.rel_append hxs hys, ?_⟩
    rw [hys.length_eq, ofDigits_reverse_append]

theorem isDigit_of_denotes (h : Denotes 10 cs n) : ∀ c ∈ cs, c.isDigit := by
  have hrun := (run?_iff fun _ _ => decimalDigit?_iff).mpr h
  exact fun c hc => isDigit_of_decimalDigit? (isSome_of_continue? hrun c hc)

end

end Numeral

namespace Operand

/-! ## The grammar -/

/-- What may stand behind the whole part of a decimal: nothing, or a point and digits, which may be none. -/
inductive Fraction : List Char → ℚ → Prop
  | none : Fraction [] 0
  | point {cs : List Char} {n : Nat} (h : Numeral.Denotes 10 cs n) : Fraction ('.' :: cs) (n / 10 ^ cs.length)

/-- A decimal without its sign. -/
inductive Magnitude : List Char → ℚ → Prop
  | mk {whole rest : List Char} {n : Nat} {q : ℚ} (hne : whole ≠ []) (hwhole : Numeral.Denotes 10 whole n)
    (hrest : Fraction rest q) : Magnitude (whole ++ rest) (n + q)

/-- The words that are operands, and which operand each of them is. -/
inductive Spells : List Char → Operand → Prop
  | returnAddress : Spells "ra".toList .returnAddress
  | stackPointer : Spells "sp".toList .stackPointer
  | register {cs : List Char} {n : Nat} (hne : cs ≠ []) (h : Numeral.Denotes 10 cs n) (hn : n < 2 ^ 32) :
    Spells ('r' :: cs) (.register (UInt32.ofNat n))
  | device {cs cs' : List Char} {slot index : Nat} {separator : Char}
    (hne : cs ≠ []) (hslot : Numeral.Denotes 10 cs slot) (hlt : slot < 65536)
    (hseparator : separator = '.' ∨ separator = '_')
    (hne' : cs' ≠ []) (hindex : Numeral.Denotes 10 cs' index) (hlt' : index < 65536) :
    Spells ('d' :: (cs ++ separator :: cs')) (.device (UInt16.ofNat slot) (UInt16.ofNat index))
  | hexLiteral {cs : List Char} {n : Nat} (hne : cs ≠ []) (h : Numeral.Denotes 16 cs n) (hn : n < 2 ^ 63) :
    Spells ('0' :: 'x' :: cs) (.hexLiteral (Int64.ofNat n))
  | literal {s : Sign} {cs : List Char} {q : ℚ} {x : Float} (h : Magnitude cs q) (hx : IsNearest s q x) :
    Spells (Layout.signChars s ++ cs) (.literal (Stored.ofFloat x))

/-! ## Decimals -/

section

variable {cs : List Char} {n : Nat} {q : ℚ} {x : Float}

theorem point_not_mem (h : Numeral.Denotes 10 cs n) : ∀ c ∈ cs, (c != '.') = true := by
  intro c hc
  rw [bne_iff_ne]
  rintro rfl
  exact absurd (Numeral.isDigit_of_denotes h _ hc) (by decide)

/-- The value of a decimal is that of all its digits, with the point moved. -/
theorem value_of_fraction (a b : Nat) (cs : List Char) :
    (Decimal.mk (10 ^ cs.length * a + b) (-(cs.length : Int))).value = a + b / 10 ^ cs.length := by
  rw [Decimal.value, zpow_neg, zpow_natCast]
  push_cast
  field_simp

/-- What starts with a point, if anything, is a fraction if digits follow. -/
theorem fraction_iff {rest : List Char} (hrest : rest = [] ∨ ∃ cs, rest = '.' :: cs) :
    Fraction rest q ↔ ∃ n, Numeral.Denotes 10 (rest.drop 1) n ∧ q = n / 10 ^ (rest.drop 1).length := by
  constructor
  · rintro (_ | h)
    · exact ⟨0, Numeral.denotes_nil, by simp⟩
    · exact ⟨_, h, rfl⟩
  · rintro ⟨n, hn, rfl⟩
    rcases hrest with rfl | ⟨cs, rfl⟩
    · obtain ⟨ds, hds, rfl⟩ := hn
      cases hds
      simpa using Fraction.none
    · exact .point hn

/-- How a decimal is read, once it is parted at the point. -/
theorem magnitude?_append_iff {whole rest : List Char} (hwhole : ∀ c ∈ whole, (c != '.') = true)
    (hrest : rest = [] ∨ ∃ cs, rest = '.' :: cs) :
    magnitude? (whole ++ rest) = some x ↔ whole ≠ [] ∧ ∃ n q, Numeral.Denotes 10 whole n ∧ Fraction rest q ∧
      IsNearest .positive (n + q) x := by
  have htake : (whole ++ rest).takeWhile (· != '.') = whole := by
    rw [List.takeWhile_append_of_pos hwhole]
    rcases hrest with rfl | ⟨cs, rfl⟩ <;> exact List.append_nil whole
  have hdrop : (whole ++ rest).dropWhile (· != '.') = rest := by
    rw [List.dropWhile_append_of_pos hwhole]
    rcases hrest with rfl | ⟨cs, rfl⟩ <;> rfl
  unfold magnitude?
  simp only [htake, hdrop]
  rw [Numeral.eq_some_of_nonempty_iff, Option.map_eq_some_iff]
  simp only [Numeral.run?_iff fun _ _ => Numeral.decimalDigit?_iff, Numeral.denotes_append, fraction_iff hrest]
  refine and_congr_right fun _ => ⟨?_, ?_⟩
  · rintro ⟨n, ⟨a, b, ha, hb, rfl⟩, rfl⟩
    refine ⟨a, _, ha, ⟨b, hb, rfl⟩, ?_⟩
    rw [← value_of_fraction]
    exact Number.isNearest_toFloat _
  · rintro ⟨a, _, ha, ⟨b, hb, rfl⟩, hx⟩
    refine ⟨_, ⟨a, b, ha, hb, rfl⟩, ?_⟩
    rw [← value_of_fraction] at hx
    exact (Number.isNearest_toFloat _).eq hx

/-- A decimal without its sign is read as the number nearest to it. -/
theorem magnitude?_iff : magnitude? cs = some x ↔ ∃ q, Magnitude cs q ∧ IsNearest .positive q x := by
  constructor
  · intro h
    have hwhole : ∀ c ∈ cs.takeWhile (· != '.'), (c != '.') = true := fun c hc =>
      List.mem_takeWhile_imp (p := (· != '.')) hc
    have hrest : cs.dropWhile (· != '.') = [] ∨ ∃ after, cs.dropWhile (· != '.') = '.' :: after := by
      have hhead := List.head?_dropWhile_not (· != '.') cs
      cases hdrop : cs.dropWhile (· != '.') with
      | nil => exact .inl rfl
      | cons c after =>
        rw [hdrop] at hhead
        simp only [List.head?_cons, bne_eq_false_iff_eq] at hhead
        exact .inr ⟨after, by rw [hhead]⟩
    rw [← List.takeWhile_append_dropWhile (p := (· != '.')) (l := cs)] at h ⊢
    obtain ⟨hne, n, q, hn, hq, hx⟩ := (magnitude?_append_iff hwhole hrest).mp h
    exact ⟨_, .mk hne hn hq, hx⟩
  · rintro ⟨_, ⟨hne, hn, hq⟩, hx⟩
    refine (magnitude?_append_iff (point_not_mem hn) ?_).mpr ⟨hne, _, _, hn, hq, hx⟩
    cases hq with
    | none => exact .inl rfl
    | point => exact .inr ⟨_, rfl⟩

/-- A decimal starts with a digit, and goes on with digits and points. -/
theorem chars_of_magnitude (h : Magnitude cs q) :
    (∃ c cs', cs = c :: cs' ∧ c.isDigit) ∧ ∀ c ∈ cs, c.isDigit ∨ c = '.' := by
  obtain ⟨hne, hwhole, hrest⟩ := h
  have hdigits := Numeral.isDigit_of_denotes hwhole
  obtain ⟨c, whole, rfl⟩ := List.exists_cons_of_ne_nil hne
  refine ⟨⟨c, _, rfl, hdigits c List.mem_cons_self⟩, fun d hd => ?_⟩
  rcases List.mem_append.mp hd with hd | hd
  · exact .inl (hdigits d hd)
  · cases hrest with
    | none => cases hd
    | point hfraction =>
      rcases List.mem_cons.mp hd with rfl | hd
      · exact .inr rfl
      · exact .inl (Numeral.isDigit_of_denotes hfraction d hd)

theorem decimal?_iff : decimal? cs = some x ↔
    ∃ s cs' q, cs = Layout.signChars s ++ cs' ∧ Magnitude cs' q ∧ IsNearest s q x := by
  constructor
  · intro h
    unfold decimal? at h
    split at h
    · obtain ⟨y, hy, rfl⟩ := Option.map_eq_some_iff.mp h
      obtain ⟨q, hq, hnearest⟩ := magnitude?_iff.mp hy
      exact ⟨.negative, _, q, rfl, hq, hnearest.neg⟩
    · obtain ⟨q, hq, hnearest⟩ := magnitude?_iff.mp h
      exact ⟨.positive, _, q, rfl, hq, hnearest⟩
  · rintro ⟨s, cs, q, rfl, hq, hnearest⟩
    cases s with
    | positive =>
      obtain ⟨⟨c, cs', rfl, hc⟩, -⟩ := chars_of_magnitude hq
      show decimal? (c :: cs') = some x
      unfold decimal?
      split
      · rename_i hcs
        cases hcs
        cases hc
      · exact magnitude?_iff.mpr ⟨q, hq, hnearest⟩
    | negative =>
      show (magnitude? cs).map Float.neg = some x
      rw [magnitude?_iff.mpr ⟨q, hq, hnearest.neg⟩]
      exact congrArg some (hnearest.neg.neg.eq hnearest)

end

/-! ## Devices -/

section

variable {cs : List Char}

theorem half?_iff {n : UInt16} :
    half? cs = some n ↔ ∃ value, cs ≠ [] ∧ Numeral.Denotes 10 cs value ∧ value < 65536 ∧ n = UInt16.ofNat value := by
  rw [half?, Option.map_eq_some_iff]
  simp only [Numeral.below?_iff, Numeral.decimal?_iff, and_assoc, eq_comm (b := n)]

theorem isSeparator_iff {c : Char} : isSeparator c = true ↔ c = '.' ∨ c = '_' := by
  rw [isSeparator, Bool.or_eq_true, beq_iff_eq, beq_iff_eq]

theorem not_isSeparator_of_denotes {n : Nat} (h : Numeral.Denotes 10 cs n) : ∀ c ∈ cs, (!isSeparator c) = true := by
  intro c hc
  have hdigit := Numeral.isDigit_of_denotes h c hc
  rw [Bool.not_eq_true', ← Bool.not_eq_true, isSeparator_iff]
  rintro (rfl | rfl) <;> cases hdigit

theorem spells_of_device? {op : Operand} (h : device? cs = some op) : Spells ('d' :: cs) op := by
  unfold device? at h
  split at h
  · cases h
  · rename_i c after hcs
    have hseparator := List.head?_dropWhile_not (!isSeparator ·) cs
    rw [hcs] at hseparator
    simp only [List.head?_cons, Bool.not_eq_false', isSeparator_iff] at hseparator
    split at h
    · rename_i slot index hslot hindex
      cases h
      obtain ⟨m, hne, hm, hlt, rfl⟩ := half?_iff.mp hslot
      obtain ⟨n, hne', hn, hlt', rfl⟩ := half?_iff.mp hindex
      rw [← List.takeWhile_append_dropWhile (p := (!isSeparator ·)) (l := cs), hcs]
      exact .device hne hm hlt hseparator hne' hn hlt'
    · cases h

end

/-! ## Words -/

section

variable {cs : List Char} {op : Operand}

theorem spells_of_ofChars? (h : ofChars? cs = some op) : Spells cs op := by
  unfold ofChars? at h
  split at h
  · cases h
    exact .returnAddress
  · cases h
    exact .stackPointer
  · obtain ⟨n, hn, rfl⟩ := Option.map_eq_some_iff.mp h
    obtain ⟨hread, hlt⟩ := Numeral.below?_iff.mp hn
    obtain ⟨hne, hdenotes⟩ := Numeral.decimal?_iff.mp hread
    exact .register hne hdenotes hlt
  · exact spells_of_device? h
  · obtain ⟨n, hn, rfl⟩ := Option.map_eq_some_iff.mp h
    obtain ⟨hread, hlt⟩ := Numeral.below?_iff.mp hn
    obtain ⟨hne, hdenotes⟩ := Numeral.hexadecimal?_iff.mp hread
    exact .hexLiteral hne hdenotes hlt
  · obtain ⟨x, hx, rfl⟩ := Option.map_eq_some_iff.mp h
    obtain ⟨s, cs, q, rfl, hq, hnearest⟩ := decimal?_iff.mp hx
    exact .literal hq hnearest

theorem device?_append {slot index : Nat} {cs' : List Char} {separator : Char}
    (hne : cs ≠ []) (hslot : Numeral.Denotes 10 cs slot) (hlt : slot < 65536)
    (hseparator : separator = '.' ∨ separator = '_')
    (hne' : cs' ≠ []) (hindex : Numeral.Denotes 10 cs' index) (hlt' : index < 65536) :
    device? (cs ++ separator :: cs') = some (.device (UInt16.ofNat slot) (UInt16.ofNat index)) := by
  have hdigits := not_isSeparator_of_denotes hslot
  have hstop : (!isSeparator separator) = false := by rw [isSeparator_iff.mpr hseparator]; rfl
  unfold device?
  rw [List.dropWhile_append_of_pos hdigits, List.takeWhile_append_of_pos hdigits,
    List.dropWhile_cons_of_neg (by rw [hstop]; decide), List.takeWhile_cons_of_neg (by rw [hstop]; decide),
    List.append_nil]
  simp only [half?_iff.mpr ⟨slot, hne, hslot, hlt, rfl⟩, half?_iff.mpr ⟨index, hne', hindex, hlt', rfl⟩]

theorem ofChars?_register (h : cs ≠ ['a']) : ofChars? ('r' :: cs) = register? cs := by
  unfold ofChars?
  split <;> simp_all

theorem ofChars?_of_spells (h : Spells cs op) : ofChars? cs = some op := by
  cases h with
  | returnAddress => rfl
  | stackPointer => rfl
  | register hne h hn =>
    have hread := Numeral.below?_iff.mpr ⟨Numeral.decimal?_iff.mpr ⟨hne, h⟩, show _ < UInt32.size from hn⟩
    rw [ofChars?_register, register?, hread]
    · rfl
    · rintro rfl
      exact absurd (Numeral.isDigit_of_denotes h 'a' List.mem_cons_self) (by decide)
  | device hne hslot hlt hseparator hne' hindex hlt' =>
    exact device?_append hne hslot hlt hseparator hne' hindex hlt'
  | hexLiteral hne h hn =>
    have hread := Numeral.below?_iff.mpr ⟨Numeral.hexadecimal?_iff.mpr ⟨hne, h⟩, show _ < Int64.size / 2 from hn⟩
    show hexLiteral? _ = _
    rw [hexLiteral?, hread]
    rfl
  | literal h hx =>
    rename_i s cs q x
    have hchars : ∀ c ∈ Layout.signChars s ++ cs, c.isDigit ∨ c = '.' ∨ c = '-' := by
      intro c hc
      rcases List.mem_append.mp hc with hc | hc
      · cases s with
        | positive => cases hc
        | negative => exact .inr (.inr (List.mem_singleton.mp hc))
      · rcases (chars_of_magnitude h).2 c hc with hc | hc
        · exact .inl hc
        · exact .inr (.inl hc)
    rw [ofChars?_decimal hchars, decimal?_iff.mpr ⟨s, cs, q, rfl, h, hx⟩]
    rfl

end

/-- A word is read as an operand if and only if it is spelled as one, and otherwise it is none. -/
theorem ofWord?_iff_spells (w : String) :
    (∀ op, ofWord? w = some op ↔ Spells w.toList op) ∧ (ofWord? w = none ↔ ∀ op, ¬ Spells w.toList op) := by
  have hiff (op : Operand) : ofWord? w = some op ↔ Spells w.toList op := ⟨spells_of_ofChars?, ofChars?_of_spells⟩
  refine ⟨hiff, ?_⟩
  rw [Option.eq_none_iff_forall_ne_some]
  exact forall_congr' fun op => not_congr (hiff op)

-- Signs, exponents, names of numbers, missing digits, numbers out of range and other digits than these are refused.
example : ["+1", "r-1", "1e5", "inf", "nan", ".5", "0x", "d0.", "r4294967296", "d65536.0", "0x8000000000000000",
    "٣"].all (fun w => (ofWord? w).isNone) = true := by decide +kernel

end Operand

end VirtualProcessor
