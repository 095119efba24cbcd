import Mathlib
import VirtualProcessor.Coding.Bytes

/-!
# Readers take what writers write

`Reads read bytes a` says of a reader that it takes the value `a` from the front of any byte string that
begins with `bytes`, takes just these bytes, and reports of every shorter piece of them that the bytes end
too early. Both halves are kept by doing one thing after the other (`Reads.bind`), so that each reader is
described by one statement next to its writer:

* `reads_nat`, `reads_signed`, `reads_bits`: numbers in their size classes, signed numbers, bits;
* `reads_text`: texts, as long as their length is a number of sixty-four bits;
* `reads_option`, `reads_list`: optional values and sequences, given how their items are read.
-/

namespace VirtualProcessor.Coding

variable {α β : Type}

/-! ## What it means to read a value -/

/-- The reader takes `a` from the front of `bytes` and whatever follows them, and is starved by any shorter
piece of them. -/
structure Reads (read : Reader α) (bytes : List UInt8) (a : α) : Prop where
  whole (rest : List UInt8) : read (bytes ++ rest) = .ok (a, rest)
  cut {front back : List UInt8} (h : front ++ back = bytes) (hb : back ≠ []) :
    read front = .error .unexpectedEnd

theorem bind_of_ok {read : Reader α} {next : α → Reader β} {bytes rest : List UInt8} {a : α}
    (h : read bytes = .ok (a, rest)) : (read >>= next) bytes = next a rest := by
  show (read bytes >>= fun x => next x.1 x.2) = next a rest
  rw [h]
  rfl

theorem bind_of_error {read : Reader α} {next : α → Reader β} {bytes : List UInt8} {e : ReadError}
    (h : read bytes = .error e) : (read >>= next) bytes = .error e := by
  show (read bytes >>= fun x => next x.1 x.2) = .error e
  rw [h]
  rfl

namespace Reads

theorem pure (a : α) : Reads (pure a : Reader α) [] a where
  whole _ := rfl
  cut h hb := absurd (List.append_eq_nil_iff.mp h).2 hb

/-- Two readers in a row read what two writers in a row have written. -/
theorem bind {read : Reader α} {next : α → Reader β} {xs ys : List UInt8} {a : α} {b : β}
    (hx : Reads read xs a) (hy : Reads (next a) ys b) : Reads (read >>= next) (xs ++ ys) b where
  whole rest := by
    rw [List.append_assoc, bind_of_ok (hx.whole (ys ++ rest))]
    exact hy.whole rest
  cut {front back} h hb := by
    -- The cut falls into the first value, or the first value is whole and the cut falls behind it.
    obtain ⟨mid, hxs, hback⟩ | ⟨mid, hfront, hys⟩ := List.append_eq_append_iff.mp h
    · by_cases hm : mid = []
      · subst hm
        have hwhole : read front = .ok (a, []) := by
          have := hx.whole []
          rwa [List.append_nil, hxs, List.append_nil] at this
        rw [bind_of_ok hwhole]
        exact hy.cut (by rw [List.nil_append, hback, List.nil_append]) hb
      · exact bind_of_error (hx.cut hxs.symm hm)
    · rw [hfront, bind_of_ok (hx.whole mid)]
      exact hy.cut hys.symm hb

/-- A reader after which nothing more is read. -/
theorem last {read : Reader α} {next : α → Reader β} {bytes : List UInt8} {a : α} {b : β}
    (h : Reads read bytes a) (hnext : Reads (next a) [] b) : Reads (read >>= next) bytes b := by
  have := h.bind hnext
  rwa [List.append_nil] at this

/-- A reader whose value is converted. -/
theorem map {read : Reader α} {bytes : List UInt8} {a : α} (h : Reads read bytes a) (f : α → β) :
    Reads (read >>= fun a => Pure.pure (f a)) bytes (f a) := h.last (Reads.pure (f a))

theorem byte (b : UInt8) : Reads Reader.byte [b] b where
  whole _ := rfl
  cut {front back} h hb := by
    cases front with
    | nil => rfl
    | cons x front =>
      have hlen := congrArg List.length h
      have hpos := List.length_pos_iff.mpr hb
      simp only [List.cons_append, List.length_cons, List.length_append, List.length_nil] at hlen
      omega

theorem take (bytes : List UInt8) : Reads (Reader.take bytes.length) bytes bytes where
  whole rest := by
    have hle : bytes.length ≤ (bytes ++ rest).length := by simp
    simp only [Reader.take, hle, ↓reduceIte, List.take_left, List.drop_left]
  cut {front back} h hb := by
    have hpos := List.length_pos_iff.mpr hb
    have hlt : ¬ bytes.length ≤ front.length := by
      rw [← h, List.length_append]
      omega
    simp only [Reader.take, hlt, ↓reduceIte]

/-- Items one after the other, by induction on them. -/
theorem many {item : Reader α} {write : α → List UInt8} {items : List α}
    (h : ∀ a ∈ items, Reads item (write a) a) :
    Reads (Reader.many item items.length) (items.flatMap write) items := by
  induction items with
  | nil => exact Reads.pure []
  | cons a items ih =>
    have hrest := ih fun x hx => h x (List.mem_cons_of_mem a hx)
    rw [List.flatMap_cons]
    exact (h a List.mem_cons_self).bind (hrest.map (a :: ·))

end Reads

/-! ## Natural numbers -/

theorem length_little (k n : Nat) : (little k n).length = k := by
  induction k generalizing n with
  | zero => rfl
  | succ k ih => simp only [little, List.length_cons, ih]

theorem ofLittle_little {k n : Nat} (h : n < 256 ^ k) : ofLittle (little k n) = n := by
  induction k generalizing n with
  | zero => simp only [pow_zero, Nat.lt_one_iff] at h; simp [little, ofLittle, h]
  | succ k ih =>
    have hdiv : n / 256 < 256 ^ k := by
      rw [pow_succ] at h
      exact Nat.div_lt_of_lt_mul (by omega)
    have hbyte : (UInt8.ofNat (n % 256)).toNat = n % 256 :=
      UInt8.toNat_ofNat_of_lt' (Nat.mod_lt n (by decide))
    simp only [little, ofLittle, ih hdiv, hbyte]
    omega

/-- The first number too large for a width. -/
def Width.limit : Width → Nat
  | .half => UInt16.size
  | .word => UInt32.size
  | .double => UInt64.size

/-- A number behind a marker that says how many bytes it takes. -/
theorem reads_marked {w : Width} {marker : UInt8} {k n : Nat} (hm : ¬ marker < 251)
    (hk : w.bytes? marker = some k) (hn : n < 256 ^ k) :
    Reads (readNat w) (marker :: little k n) n := by
  have hbytes : Reads (Reader.take k >>= fun bytes => Pure.pure (ofLittle bytes)) (little k n) n := by
    have := (Reads.take (little k n)).map ofLittle
    rwa [length_little, ofLittle_little hn] at this
  show Reads (readNat w) ([marker] ++ little k n) n
  refine (Reads.byte marker).bind ?_
  rw [if_neg hm, hk]
  exact hbytes

/-- A number is read by any width that has room for it. -/
theorem reads_nat (w : Width) {n : Nat} (hn : n < w.limit) : Reads (readNat w) (writeNat n) n := by
  unfold writeNat
  split
  · rename_i h
    have hbyte : (UInt8.ofNat n).toNat = n := UInt8.toNat_ofNat_of_lt' (by simp only [UInt8.size]; omega)
    have hlt : UInt8.ofNat n < 251 := by
      rw [UInt8.lt_iff_toNat_lt, hbyte]
      exact h
    refine (Reads.byte (UInt8.ofNat n)).last ?_
    rw [if_pos hlt, hbyte]
    exact Reads.pure n
  split
  · rename_i h
    exact reads_marked (by decide) rfl (by simpa using h)
  split
  · rename_i h₁ h₂
    have hw : w.bytes? 252 = some 4 := by
      cases w with
      | half => exact absurd hn h₁
      | word => rfl
      | double => rfl
    exact reads_marked (by decide) hw (by simpa using h₂)
  · rename_i h₁ h₂
    have hw : w = .double := by
      cases w with
      | half => exact absurd hn h₁
      | word => exact absurd hn h₂
      | double => rfl
    subst hw
    exact reads_marked (by decide) rfl (by simpa [Width.limit] using hn)

/-! ## Signed numbers, bits and texts -/

theorem zigzag_lt (i : Int64) : zigzag i < UInt64.size := by
  have hle := Int64.le_toInt i
  have hlt := Int64.toInt_lt i
  unfold zigzag
  simp only [UInt64.size]
  split <;> omega

theorem unzigzag_zigzag (i : Int64) : unzigzag (zigzag i) = i := by
  unfold zigzag
  split
  · rename_i h
    have heven : 2 * i.toInt.toNat % 2 = 0 := by omega
    have hhalf : ((2 * i.toInt.toNat / 2 : Nat) : Int) = i.toInt := by omega
    rw [unzigzag, if_pos heven, hhalf, Int64.ofInt_toInt]
  · rename_i h
    have hodd : ¬ (2 * (-i.toInt).toNat - 1) % 2 = 0 := by omega
    have hhalf : -(((2 * (-i.toInt).toNat - 1) / 2 : Nat) : Int) - 1 = i.toInt := by omega
    rw [unzigzag, if_neg hodd, hhalf, Int64.ofInt_toInt]

theorem reads_signed (i : Int64) : Reads readSigned (writeSigned i) i := by
  have := (reads_nat .double (zigzag_lt i)).map unzigzag
  rwa [unzigzag_zigzag] at this

theorem reads_bits (bits : UInt64) : Reads readBits (writeBits bits) bits := by
  have hlt : bits.toNat < 256 ^ 8 := bits.toNat_lt
  have := (Reads.take (little 8 bits.toNat)).map fun bytes => UInt64.ofNat (ofLittle bytes)
  rwa [length_little, ofLittle_little hlt, UInt64.ofNat_toNat] at this

theorem fromUTF8?_toUTF8 (s : String) : String.fromUTF8? ⟨s.toUTF8.data.toList.toArray⟩ = some s := by
  rw [Array.toArray_toList]
  exact dif_pos s.isValidUTF8

/-- A text whose length is a number of sixty-four bits. -/
theorem reads_text {s : String} (hs : s.toUTF8.size < UInt64.size) : Reads readText (writeText s) s := by
  refine (reads_nat .double hs).bind ?_
  have hbytes := Reads.take s.toUTF8.data.toList
  rw [show s.toUTF8.data.toList.length = s.toUTF8.size from Array.length_toList] at hbytes
  refine hbytes.last ?_
  rw [fromUTF8?_toUTF8]
  exact Reads.pure s

/-! ## Optional values and sequences -/

theorem reads_option {read : Reader α} {write : α → List UInt8} {o : Option α}
    (h : ∀ a ∈ o, Reads read (write a) a) : Reads (readOption read) (writeOption write o) o := by
  cases o with
  | none => exact (Reads.byte 0).last (Reads.pure none)
  | some a => exact (Reads.byte 1).bind ((h a rfl).map some)

theorem reads_list {read : Reader α} {write : α → List UInt8} {items : List α}
    (hn : items.length < UInt64.size) (h : ∀ a ∈ items, Reads read (write a) a) :
    Reads (readList read) (writeList write items) items :=
  (reads_nat .double hn).bind (Reads.many h)

end VirtualProcessor.Coding
