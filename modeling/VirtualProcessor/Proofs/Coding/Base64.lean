import VirtualProcessor.Coding.Base64
import VirtualProcessor.Text.Blank

/-!
# Base64 is read back

`decode_encode`: reading gives back the bytes that were written, whichever of the three lengths the last
group has. The groups in front of the last are read one by one (`groups_letters`); the last one is described
by `finish_one`, `finish_two` and `finish_three`. A text that begins with a byte outside the alphabet is refused
(`decode_stranger`).

What is written consists of letters and `=` only (`mem_encode`), so that none of its characters is blank
(`not_isBlank_encodeText`) and each takes one byte (`toUTF8_encodeText`).
-/

namespace VirtualProcessor.Coding.Base64

/-! ## Letters -/

theorem value?_letter : ∀ v < 64, value? (letter v) = some v := by decide

theorem letter_ne_pad : ∀ v < 64, letter v ≠ pad := by decide

theorem valueAt_letter {v : Nat} (hv : v < 64) (offset : Nat) : valueAt (letter v) offset = .ok v := by
  simp only [valueAt, value?_letter v hv]

/-! ## The last group -/

theorem lastGroup_letter {v : Nat} (hv : v < 64) (start position : Nat) {rest : List UInt8}
    {values : List Nat} {fills : Nat}
    (h : lastGroup start (position + 1) 0 rest = .ok (values, fills)) :
    lastGroup start position 0 (letter v :: rest) = .ok (v :: values, fills) := by
  have hp := letter_ne_pad v hv
  simp only [lastGroup, hp, ↓reduceIte, Nat.lt_irrefl, valueAt_letter hv, h]
  rfl

theorem lastGroup_pad {start position fills : Nat} (hp : 2 ≤ position) (rest : List UInt8) :
    lastGroup start position fills (pad :: rest) = lastGroup start (position + 1) (fills + 1) rest := by
  have hp' : ¬ position < 2 := Nat.not_lt.mpr hp
  simp only [lastGroup, ↓reduceIte, hp']

theorem finish_one {a b : Nat} (ha : a < 64) (hb : b < 64) (hz : b % 16 = 0) (start : Nat) :
    finish start [letter a, letter b, pad, pad] = .ok [UInt8.ofNat (a * 4 + b / 16)] := by
  have h : lastGroup start 0 0 [letter a, letter b, pad, pad] = .ok ([a, b], 2) := by
    refine lastGroup_letter ha start 0 (lastGroup_letter hb start 1 ?_)
    rw [lastGroup_pad (by decide), lastGroup_pad (by decide)]
    rfl
  simp only [finish, h, bind, Except.bind, List.length_cons, List.length_nil, hz]
  rfl

theorem finish_two {a b c : Nat} (ha : a < 64) (hb : b < 64) (hc : c < 64) (hz : c % 4 = 0) (start : Nat) :
    finish start [letter a, letter b, letter c, pad] =
      .ok [UInt8.ofNat (a * 4 + b / 16), UInt8.ofNat (b % 16 * 16 + c / 4)] := by
  have h : lastGroup start 0 0 [letter a, letter b, letter c, pad] = .ok ([a, b, c], 1) := by
    refine lastGroup_letter ha start 0 (lastGroup_letter hb start 1 (lastGroup_letter hc start 2 ?_))
    rw [lastGroup_pad (by decide)]
    rfl
  simp only [finish, h, bind, Except.bind, List.length_cons, List.length_nil, hz]
  rfl

theorem finish_three {a b c d : Nat} (ha : a < 64) (hb : b < 64) (hc : c < 64) (hd : d < 64) (start : Nat) :
    finish start [letter a, letter b, letter c, letter d] = .ok (joined a b c d) := by
  have h : lastGroup start 0 0 [letter a, letter b, letter c, letter d] = .ok ([a, b, c, d], 0) :=
    lastGroup_letter ha start 0 (lastGroup_letter hb start 1 (lastGroup_letter hc start 2
      (lastGroup_letter hd start 3 rfl)))
  simp only [finish, h, bind, Except.bind, List.length_cons, List.length_nil]
  rfl

/-! ## All groups -/

/-- Four letters in front of others are three bytes in front of what the others stand for. -/
theorem groups_letters {a b c d : Nat} (ha : a < 64) (hb : b < 64) (hc : c < 64) (hd : d < 64)
    (start : Nat) {rest : List UInt8} {bytes : List UInt8} (hrest : rest ≠ [])
    (h : groups (start + 4) rest = .ok bytes) :
    groups start (letter a :: letter b :: letter c :: letter d :: rest) =
      .ok (joined a b c d ++ bytes) := by
  obtain ⟨e, rest, rfl⟩ := List.exists_cons_of_ne_nil hrest
  simp only [groups, valueAt_letter ha, valueAt_letter hb, valueAt_letter hc, valueAt_letter hd, h, bind,
    Except.bind]
  rfl

section Sextets

variable (a b c : UInt8)

theorem first_lt : a.toNat / 4 < 64 := by
  have ha := a.toNat_lt
  omega

theorem second_lt : a.toNat % 4 * 16 + b.toNat / 16 < 64 := by
  have hb := b.toNat_lt
  omega

theorem third_lt : b.toNat % 16 * 4 + c.toNat / 64 < 64 := by
  have hc := c.toNat_lt
  omega

theorem fourth_lt : c.toNat % 64 < 64 := Nat.mod_lt _ (by decide)

/-- The first byte is had from the first two of its values. -/
theorem first_byte : UInt8.ofNat (a.toNat / 4 * 4 + (a.toNat % 4 * 16 + b.toNat / 16) / 16) = a := by
  have hb := b.toNat_lt
  have e : a.toNat / 4 * 4 + (a.toNat % 4 * 16 + b.toNat / 16) / 16 = a.toNat := by omega
  rw [e, UInt8.ofNat_toNat]

/-- The four values of three bytes, put together again. -/
theorem joined_split :
    joined (a.toNat / 4) (a.toNat % 4 * 16 + b.toNat / 16) (b.toNat % 16 * 4 + c.toNat / 64)
      (c.toNat % 64) = [a, b, c] := by
  have hb := b.toNat_lt
  have hc := c.toNat_lt
  have e₂ : (a.toNat % 4 * 16 + b.toNat / 16) % 16 * 16 + (b.toNat % 16 * 4 + c.toNat / 64) / 4 =
      b.toNat := by omega
  have e₃ : (b.toNat % 16 * 4 + c.toNat / 64) % 4 * 64 + c.toNat % 64 = c.toNat := by omega
  simp only [joined, first_byte, e₂, e₃, UInt8.ofNat_toNat]

end Sextets

theorem encode_eq_nil {bytes : List UInt8} (h : encode bytes = []) : bytes = [] := by
  unfold encode at h
  split at h
  · rfl
  all_goals cases h

theorem groups_encode (bytes : List UInt8) (start : Nat) : groups start (encode bytes) = .ok bytes := by
  fun_induction encode bytes generalizing start with
  | case1 => rfl
  | case2 a =>
    have e : a.toNat / 4 * 4 + a.toNat % 4 * 16 / 16 = a.toNat := by omega
    have := finish_one (b := a.toNat % 4 * 16) (first_lt a) (by omega) (by omega) start
    rwa [e, UInt8.ofNat_toNat] at this
  | case3 a b =>
    have hb := b.toNat_lt
    have e : (a.toNat % 4 * 16 + b.toNat / 16) % 16 * 16 + b.toNat % 16 * 4 / 4 = b.toNat := by omega
    have := finish_two (c := b.toNat % 16 * 4) (first_lt a) (second_lt a b) (by omega) (by omega) start
    rwa [first_byte, e, UInt8.ofNat_toNat] at this
  | case4 a b c rest ih =>
    by_cases hrest : encode rest = []
    · rw [hrest, encode_eq_nil hrest]
      have := finish_three (first_lt a) (second_lt a b) (third_lt b c) (fourth_lt c) start
      rwa [joined_split] at this
    · have := groups_letters (first_lt a) (second_lt a b) (third_lt b c) (fourth_lt c) start hrest
        (ih (start + 4))
      rwa [joined_split] at this

theorem length_encode (bytes : List UInt8) : (encode bytes).length % 4 = 0 := by
  fun_induction encode bytes with
  | case1 => rfl
  | case2 => simp only [List.length_cons, List.length_nil]
  | case3 => simp only [List.length_cons, List.length_nil]
  | case4 a b c rest ih =>
    simp only [List.length_cons]
    omega

/-- What was written is read back. -/
theorem decode_encode (bytes : List UInt8) : decode (encode bytes) = .ok bytes := by
  unfold decode
  split
  · have hlen : ¬ (encode bytes).length % 4 = 1 := by
      rw [length_encode]
      decide
    rw [if_neg fun h => hlen h.1, groups_encode]
  · rename_i h
    rw [encode_eq_nil (List.getLast?_eq_none_iff.mp h)]

/-- A text that begins with a byte outside the alphabet is refused. -/
theorem decode_stranger {b : UInt8} (hv : value? b = none) (hp : b ≠ pad) (rest : List UInt8) :
    ∃ fault, decode (b :: rest) = .error fault := by
  have hat : ∀ offset, valueAt b offset = .error (.symbol b offset) := fun offset => by
    simp only [valueAt, hv]
  have hfinish : ∀ rest, finish 0 (b :: rest) = .error (.symbol b 0) := fun rest => by
    simp only [finish, lastGroup, hp, ↓reduceIte, Nat.lt_irrefl, hat]
    rfl
  have hgroups : groups 0 (b :: rest) = .error (.symbol b 0) := by
    unfold groups
    split
    · rename_i h
      cases h
    · rename_i h
      cases h
      simp only [hat]
      rfl
    · exact hfinish rest
  unfold decode
  split
  · split
    · exact ⟨_, rfl⟩
    · exact ⟨_, hgroups⟩
  · rename_i h
    exact absurd (List.getLast?_eq_none_iff.mp h) (List.cons_ne_nil b rest)

/-! ## The text -/

theorem mem_encode {bytes : List UInt8} {x : UInt8} (h : x ∈ encode bytes) :
    x = pad ∨ ∃ v < 64, x = letter v := by
  fun_induction encode bytes with
  | case1 => cases h
  | case2 a =>
    simp only [List.mem_cons, List.not_mem_nil, or_false] at h
    obtain rfl | rfl | rfl | rfl := h
    · exact .inr ⟨_, first_lt a, rfl⟩
    · exact .inr ⟨_, by omega, rfl⟩
    · exact .inl rfl
    · exact .inl rfl
  | case3 a b =>
    simp only [List.mem_cons, List.not_mem_nil, or_false] at h
    obtain rfl | rfl | rfl | rfl := h
    · exact .inr ⟨_, first_lt a, rfl⟩
    · exact .inr ⟨_, second_lt a b, rfl⟩
    · exact .inr ⟨_, by omega, rfl⟩
    · exact .inl rfl
  | case4 a b c rest ih =>
    simp only [List.mem_cons] at h
    obtain rfl | rfl | rfl | rfl | h := h
    · exact .inr ⟨_, first_lt a, rfl⟩
    · exact .inr ⟨_, second_lt a b, rfl⟩
    · exact .inr ⟨_, third_lt b c, rfl⟩
    · exact .inr ⟨_, fourth_lt c, rfl⟩
    · exact ih h

/-- A byte of the text stands for a character of its own, which is not blank. -/
theorem symbol_of_mem_encode {bytes : List UInt8} {x : UInt8} (h : x ∈ encode bytes) :
    x.toNat < 128 ∧ Text.isBlank (Char.ofNat x.toNat) = false := by
  have hletter : ∀ v < 64, (letter v).toNat < 128 ∧
      Text.isBlank (Char.ofNat (letter v).toNat) = false := by decide
  obtain rfl | ⟨v, hv, rfl⟩ := mem_encode h
  · decide
  · exact hletter v hv

theorem not_isBlank_encodeText {bytes : List UInt8} {c : Char} (h : c ∈ (encodeText bytes).toList) :
    Text.isBlank c = false := by
  rw [encodeText, String.toList_ofList] at h
  obtain ⟨x, hx, rfl⟩ := List.mem_map.mp h
  exact (symbol_of_mem_encode hx).2

theorem utf8EncodeChar_ofNat {x : UInt8} (h : x.toNat < 128) :
    String.utf8EncodeChar (Char.ofNat x.toNat) = [x] := by
  have hvalid : x.toNat.isValidChar := .inl (by omega)
  have hval : (Char.ofNat x.toNat).val.toNat = x.toNat := by
    rw [Char.ofNat, dif_pos hvalid]
    rfl
  have hle : x.toNat ≤ 127 := by omega
  simp only [String.utf8EncodeChar, hval, hle, ↓reduceIte, UInt8.ofNat_toNat]

/-- Characters below 128 take one byte each. -/
theorem toUTF8_ofList_map {xs : List UInt8} (h : ∀ x ∈ xs, x.toNat < 128) :
    (String.ofList (xs.map fun x => Char.ofNat x.toNat)).toUTF8.data.toList = xs := by
  rw [String.toUTF8_eq_toByteArray, String.toByteArray_ofList, List.utf8Encode, List.data_toByteArray]
  show (xs.map fun x => Char.ofNat x.toNat).flatMap String.utf8EncodeChar = xs
  induction xs with
  | nil => rfl
  | cons x xs ih =>
    rw [List.map_cons, List.flatMap_cons, utf8EncodeChar_ofNat (h x List.mem_cons_self),
      ih fun y hy => h y (List.mem_cons_of_mem x hy)]
    rfl

theorem toUTF8_encodeText (bytes : List UInt8) : (encodeText bytes).toUTF8.data.toList = encode bytes :=
  toUTF8_ofList_map fun _ hx => (symbol_of_mem_encode hx).1

end VirtualProcessor.Coding.Base64
