import VirtualProcessor.CommandLine.Session
import VirtualProcessor.Proofs.Program.Carrier

/-!
# Programs are read back from files

Which form a file holds is told by its content: what is text and not blank is taken for base64. A program
stored as base64 is always read back (`ofContent_toBase64`). A program stored in its binary form is read back
just when its bytes are not text (`ofContent_toBytes`): the first byte of a program, its target, is neither blank
nor in the alphabet of base64, so that bytes that happen to be text are refused (`ofContent_of_text`).
`stored_read_back` puts this together for what `build` writes, and `copying_refused` is a program that it writes in
vain.
-/

namespace VirtualProcessor

open Coding

/-! ## Text and bytes -/

theorem Files.toUTF8_of_decodeText {bytes : List UInt8} {text : String}
    (h : Files.decodeText bytes = some text) : text.toUTF8.data.toList = bytes := by
  unfold decodeText String.fromUTF8? at h
  split at h
  · cases h
    rfl
  · cases h

/-- Only a character of one byte has a first byte below 128. -/
theorem utf8EncodeChar_head {c : Char} {b : UInt8} {rest : List UInt8} (hb : b.toNat < 128)
    (h : String.utf8EncodeChar c = b :: rest) : c = Char.ofNat b.toNat := by
  have hlead : ∀ {n : Nat} {xs : List UInt8}, 128 ≤ n % 256 → UInt8.ofNat n :: xs = b :: rest → False := by
    intro n xs hn he
    rw [← (List.cons.inj he).1, UInt8.toNat_ofNat'] at hb
    exact absurd hb (Nat.not_lt.mpr hn)
  unfold String.utf8EncodeChar at h
  simp only at h
  split at h
  · rename_i hle
    obtain ⟨rfl, -⟩ := List.cons.inj h
    have hval : (UInt8.ofNat c.val.toNat).toNat = c.toNat :=
      UInt8.toNat_ofNat_of_lt' (Nat.lt_of_le_of_lt hle (by decide))
    rw [hval, Char.ofNat_toNat]
  split at h
  · exact (hlead (by omega) h).elim
  split at h
  · exact (hlead (by omega) h).elim
  · exact (hlead (by omega) h).elim

/-- A text whose first byte is below 128 begins with the character of that byte. -/
theorem toList_of_toUTF8 {text : String} {b : UInt8} {rest : List UInt8} (hb : b.toNat < 128)
    (h : text.toUTF8.data.toList = b :: rest) : ∃ cs, text.toList = Char.ofNat b.toNat :: cs := by
  have hbytes : text.toList.flatMap String.utf8EncodeChar = b :: rest := by
    rw [← h, String.toUTF8_eq_toByteArray, ← String.utf8Encode_toList, List.utf8Encode,
      List.data_toByteArray]
  cases htext : text.toList with
  | nil =>
    rw [htext] at hbytes
    cases hbytes
  | cons c cs =>
    rw [htext, List.flatMap_cons] at hbytes
    cases hc : String.utf8EncodeChar c with
    | nil => exact absurd hc String.utf8EncodeChar_ne_nil
    | cons b' rest' =>
      rw [hc, List.cons_append] at hbytes
      obtain ⟨rfl, -⟩ := List.cons.inj hbytes
      exact ⟨cs, by rw [utf8EncodeChar_head hb hc]⟩

namespace Program

/-! ## The two forms -/

/-- The binary form begins with the number of the target. -/
theorem toBytes_eq_cons (p : Program) : ∃ b rest, p.toBytes = b :: rest ∧ (b = 0 ∨ b = 1) := by
  unfold toBytes writeProgram
  cases p.target with
  | debug => exact ⟨0, _, rfl, .inl rfl⟩
  | release => exact ⟨1, _, rfl, .inr rfl⟩

/-- Binary content that is text is taken for base64 and refused. -/
theorem ofContent_of_text {p : Program} {text : String} (h : Files.decodeText p.toBytes = some text) :
    ∃ fault, ofContent p.toBytes = .error (.text fault) := by
  obtain ⟨b, rest, hbytes, hb⟩ := p.toBytes_eq_cons
  have hsmall : b.toNat < 128 ∧ Text.isBlank (Char.ofNat b.toNat) = false ∧
      Base64.value? b = none ∧ b ≠ Base64.pad := by
    obtain rfl | rfl := hb
    · decide
    · decide
  obtain ⟨hlt, hblank, hvalue, hpad⟩ := hsmall
  obtain ⟨cs, hcs⟩ := toList_of_toUTF8 hlt ((Files.toUTF8_of_decodeText h).trans hbytes)
  have htrim : Text.trim text.toList = Char.ofNat b.toNat :: Text.trimEnd cs := by
    rw [hcs, Text.trim_cons hblank]
  have hne : (Text.trim text.toList).isEmpty = false := by
    rw [htrim]
    rfl
  -- The character of the target takes one byte, which stays in front.
  have hfront : ∃ rest, (String.ofList (Text.trim text.toList)).toUTF8.data.toList = b :: rest := by
    rw [htrim, String.toUTF8_eq_toByteArray, String.toByteArray_ofList, List.utf8Encode,
      List.data_toByteArray, List.flatMap_cons, Base64.utf8EncodeChar_ofNat hlt]
    exact ⟨_, rfl⟩
  obtain ⟨rest', hfront⟩ := hfront
  obtain ⟨fault, hfault⟩ := Base64.decode_stranger hvalue hpad rest'
  refine ⟨fault, ?_⟩
  unfold ofContent ofBase64
  simp only [h, hne, Bool.false_eq_true, ↓reduceIte, hfront, hfault]

theorem ofContent_toBytes {p : Program} (hp : p.Sized) :
    ofContent p.toBytes = .ok p ↔ Files.decodeText p.toBytes = none := by
  cases h : Files.decodeText p.toBytes with
  | none => simp only [ofContent, h, ofBytes_toBytes hp]
  | some text =>
    obtain ⟨fault, hfault⟩ := ofContent_of_text h
    rw [hfault]
    exact ⟨nofun, nofun⟩

theorem toBase64_toList_ne_nil (p : Program) : p.toBase64.toList ≠ [] := fun h => by
  obtain ⟨b, rest, hbytes, -⟩ := p.toBytes_eq_cons
  rw [toBase64, Base64.encodeText, String.toList_ofList, List.map_eq_nil_iff] at h
  rw [Base64.encode_eq_nil h] at hbytes
  cases hbytes

theorem ofContent_toBase64 {p : Program} (hp : p.Sized) :
    ofContent p.toBase64.toUTF8.data.toList = .ok p := by
  have htext : Files.decodeText p.toBase64.toUTF8.data.toList = some p.toBase64 := fromUTF8?_toUTF8 p.toBase64
  have htrim : Text.trim p.toBase64.toList = p.toBase64.toList := by
    have := Text.trim_surrounded (u := []) (v := []) nofun
      (fun c (hc : c ∈ p.toBase64.toList) => Base64.not_isBlank_encodeText hc) nofun
    rwa [List.nil_append, List.append_nil] at this
  have hne : (Text.trim p.toBase64.toList).isEmpty = false := by
    rw [htrim, List.isEmpty_eq_false_iff]
    exact p.toBase64_toList_ne_nil
  simp only [ofContent, htext, hne, Bool.false_eq_true, ↓reduceIte, ofBase64_of_trim hp htrim]

/-! ## Files -/

open CommandLine (contentOf)

theorem ofFileWith_of_bytes {read : List UInt8 → Except CarrierError Program} {files : Files} {path : String}
    {bytes : List UInt8} (h : files.bytes path = .ok bytes) : ofFileWith read files path = read bytes := by
  simp only [ofFileWith, h]

/-- A program that `build` has written as base64 is read back. One that it has written in binary form is read
back just when the bytes are not text; otherwise they are refused as base64. -/
theorem stored_read_back (p : Program) (hp : p.Sized) (files : Files) (path : String) :
    (files.bytes path = .ok (contentOf p true) → ofFileWith ofContent files path = .ok p) ∧
      (files.bytes path = .ok (contentOf p false) →
        (ofFileWith ofContent files path = .ok p ↔ Files.decodeText p.toBytes = none) ∧
          (Files.decodeText p.toBytes ≠ none →
            ∃ fault, ofFileWith ofContent files path = .error (.text fault))) := by
  refine ⟨fun h => ?_, fun h => ?_⟩
  · rw [ofFileWith_of_bytes h]
    exact ofContent_toBase64 hp
  · rw [ofFileWith_of_bytes h]
    refine ⟨ofContent_toBytes hp, fun htext => ?_⟩
    obtain ⟨text, htext⟩ := Option.ne_none_iff_exists'.mp htext
    exact ofContent_of_text htext

/-- The bytes of `extremes` are not text, so that both of its forms are read back. -/
theorem stored_read_back_extremes :
    extremes.Sized ∧ Files.decodeText extremes.toBytes = none ∧
      ∀ base64, ofFileWith ofContent ⟨fun _ => .ok (contentOf extremes base64)⟩ "x" = .ok extremes := by
  have hs : extremes.Sized := by decide +kernel
  have ht : Files.decodeText extremes.toBytes = none := by decide +kernel
  refine ⟨hs, ht, fun base64 => ?_⟩
  cases base64 with
  | false => exact ((stored_read_back extremes hs ⟨fun _ => .ok _⟩ "x").2 rfl).1.mpr ht
  | true => exact (stored_read_back extremes hs ⟨fun _ => .ok _⟩ "x").1 rfl

/-- Copies the return address and ends, as assembled for debugging. -/
def copying : Program where
  target := .debug
  instructions :=
    #[{ operation := .unary .move, destination := some (.register 0), left := some .returnAddress, line := 1,
        rawText := "mov r0 ra", text := "mov r0 ra" },
      { operation := .ret, line := 4, rawText := "ret", text := "ret" }]

/-- The bytes of `copying` are text, so that what `build` has written of it is refused. -/
theorem copying_refused :
    copying.Sized ∧ ofFileWith ofContent ⟨fun _ => .ok (contentOf copying false)⟩ "x" ≠ .ok copying := by
  have htext : Files.decodeText copying.toBytes ≠ none := by decide +kernel
  obtain ⟨text, htext⟩ := Option.ne_none_iff_exists'.mp htext
  obtain ⟨fault, hfault⟩ := ofContent_of_text htext
  have hread : ofFileWith ofContent ⟨fun _ => .ok (contentOf copying false)⟩ "x" = ofContent copying.toBytes :=
    ofFileWith_of_bytes rfl
  refine ⟨by decide +kernel, ?_⟩
  rw [hread, hfault]
  nofun

end Program

end VirtualProcessor
