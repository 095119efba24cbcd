import VirtualProcessor.Program.Carrier
import VirtualProcessor.Proofs.Coding.Base64
import VirtualProcessor.Proofs.Coding.Bytes
import VirtualProcessor.Proofs.Text.Blank

/-!
# Programs survive their carriers

The parts of a program are read as they were written, from operands up to the whole program
(`reads_operand`, `reads_instruction`, `reads_program`). Hence

* `transport_lossless`: a program is had back from its binary form, whatever follows it, and from its text
  form, whatever blanks stand around it;
* `truncated_refused`: no piece of the binary form that lacks its end is read as a program, so that the binary
  form of one program never begins that of another.

The binary form gives lengths sixty-four bits. `Sized` says that the lengths of a program are such numbers, as
the length of anything is that a machine can hold.
-/

namespace VirtualProcessor

open Coding

/-! ## Lengths -/

/-- The texts of the instruction have lengths of sixty-four bits. -/
def Instruction.Sized (i : Instruction) : Prop :=
  i.rawText.toUTF8.size < UInt64.size ∧ i.text.toUTF8.size < UInt64.size

instance (i : Instruction) : Decidable i.Sized := inferInstanceAs (Decidable (_ ∧ _))

/-- The sequence of instructions and all texts have lengths of sixty-four bits. -/
def Program.Sized (p : Program) : Prop :=
  p.instructions.toList.length < UInt64.size ∧ ∀ i ∈ p.instructions.toList, i.Sized

instance (p : Program) : Decidable p.Sized := inferInstanceAs (Decidable (_ ∧ _))

namespace Coding

/-! ## Parts of a program -/

theorem reads_word (n : UInt32) : Reads readWord (writeWord n) n := by
  have := (reads_nat .word n.toNat_lt).map UInt32.ofNat
  rwa [UInt32.ofNat_toNat] at this

theorem reads_half (n : UInt16) : Reads readHalf (writeHalf n) n := by
  have := (reads_nat .half n.toNat_lt).map UInt16.ofNat
  rwa [UInt16.ofNat_toNat] at this

theorem reads_target (t : BuildTarget) : Reads readTarget (writeTarget t) t := by
  cases t with
  | debug => exact (reads_nat .word (n := 0) (by decide)).last (Reads.pure BuildTarget.debug)
  | release => exact (reads_nat .word (n := 1) (by decide)).last (Reads.pure BuildTarget.release)

theorem code_lt (op : Operation) : op.code < UInt32.size := by
  have h := Operation.ofCode?_code op
  have hlt : op.code < Operation.all.length := (List.getElem?_eq_some_iff.mp h).1
  exact Nat.lt_trans hlt (by decide)

theorem reads_operation (op : Operation) : Reads readOperation (writeOperation op) op := by
  refine (reads_nat .word (code_lt op)).last ?_
  rw [Operation.ofCode?_code]
  exact Reads.pure op

/-- One case per kind of operand: its number, then its parts. -/
theorem reads_operand (op : Operand) : Reads readOperand (writeOperand op) op := by
  cases op with
  | literal value =>
    exact (reads_nat .word (n := 0) (by decide)).bind ((reads_bits value.bits).map fun b => Operand.literal ⟨b⟩)
  | hexLiteral value =>
    exact (reads_nat .word (n := 1) (by decide)).bind ((reads_signed value).map Operand.hexLiteral)
  | register index =>
    exact (reads_nat .word (n := 2) (by decide)).bind ((reads_word index).map Operand.register)
  | stackPointer => exact (reads_nat .word (n := 3) (by decide)).last (Reads.pure _)
  | returnAddress => exact (reads_nat .word (n := 4) (by decide)).last (Reads.pure _)
  | device slot index =>
    rw [writeOperand, List.append_assoc]
    exact (reads_nat .word (n := 5) (by decide)).bind
      ((reads_half slot).bind ((reads_half index).map (Operand.device slot)))

theorem reads_operand? (o : Option Operand) :
    Reads (readOption readOperand) (writeOption writeOperand o) o :=
  reads_option fun op _ => reads_operand op

theorem reads_instruction {i : Instruction} (hi : i.Sized) :
    Reads readInstruction (writeInstruction i) i := by
  simp only [writeInstruction, List.append_assoc]
  refine (reads_operation i.operation).bind ?_
  refine (reads_operand? i.destination).bind ?_
  refine (reads_operand? i.left).bind ?_
  refine (reads_operand? i.right).bind ?_
  refine (reads_word i.line).bind ?_
  refine (reads_text hi.1).bind ?_
  exact (reads_text hi.2).map fun text => ({ i with text } : Instruction)

theorem reads_requirements (r : Requirements) : Reads readRequirements (writeRequirements r) r := by
  simp only [writeRequirements, List.append_assoc]
  refine (reads_word r.registers).bind ?_
  refine (reads_word r.stack).bind ?_
  refine (reads_word r.devices).bind ?_
  exact (reads_word r.memory).map fun memory => ({ r with memory } : Requirements)

theorem reads_program {p : Program} (hp : p.Sized) : Reads readProgram (writeProgram p) p := by
  simp only [writeProgram, List.append_assoc]
  refine (reads_target p.target).bind ?_
  refine (reads_requirements p.requirements).bind ?_
  exact (reads_list hp.1 fun i hi => reads_instruction (hp.2 i hi)).map fun instructions =>
    ({ p with instructions := instructions.toArray } : Program)

end Coding

namespace Program

/-! ## Whole programs -/

theorem ofBytes_toBytes_append {p : Program} (hp : p.Sized) (rest : List UInt8) :
    ofBytes (p.toBytes ++ rest) = .ok p := by
  have h : readProgram (p.toBytes ++ rest) = .ok (p, rest) := (reads_program hp).whole rest
  simp only [ofBytes, h]

theorem ofBytes_toBytes {p : Program} (hp : p.Sized) : ofBytes p.toBytes = .ok p := by
  have := ofBytes_toBytes_append hp []
  rwa [List.append_nil] at this

theorem ofBytes_take {p : Program} (hp : p.Sized) {k : Nat} (hk : k < p.toBytes.length) :
    ofBytes (p.toBytes.take k) = .error (.bytes .unexpectedEnd) := by
  have hback : p.toBytes.drop k ≠ [] := fun h => by
    have := List.drop_eq_nil_iff.mp h
    omega
  have h : readProgram (p.toBytes.take k) = .error .unexpectedEnd :=
    (reads_program hp).cut (List.take_append_drop k _) hback
  simp only [ofBytes, h]

theorem ofBase64_of_trim {p : Program} (hp : p.Sized) {text : String}
    (h : Text.trim text.toList = p.toBase64.toList) : ofBase64 text = .ok p := by
  have hbytes : (String.ofList (Text.trim text.toList)).toUTF8.data.toList = Base64.encode p.toBytes := by
    rw [h, String.ofList_toList]
    exact Base64.toUTF8_encodeText p.toBytes
  simp only [ofBase64, hbytes, Base64.decode_encode, ofBytes_toBytes hp]

/-- A program comes back bit for bit from its binary form with anything behind it, and from its text form with
any blanks around it. -/
theorem transport_lossless (p : Program) (hp : p.Sized) :
    (∀ rest, ofBytes (p.toBytes ++ rest) = .ok p) ∧
      ∀ u v : String, (∀ c ∈ u.toList, Text.isBlank c) → (∀ c ∈ v.toList, Text.isBlank c) →
        ofBase64 (u ++ p.toBase64 ++ v) = .ok p := by
  refine ⟨ofBytes_toBytes_append hp, fun u v hu hv => ofBase64_of_trim hp ?_⟩
  rw [String.toList_append, String.toList_append]
  exact Text.trim_surrounded hu (fun c hc => Base64.not_isBlank_encodeText hc) hv

/-- A program with literals at the limits: the least signed number, a quiet and a signalling pattern that is
not a number, the negative zero, and texts beyond ASCII. -/
def extremes : Program where
  target := .release
  requirements := { registers := 250, stack := 251, devices := 65536, memory := 4294967295 }
  instructions :=
    #[{ operation := .binary .add, destination := some (.device 65535 251),
        left := some (.hexLiteral Int64.minValue), right := some (.literal ⟨0xFFF8000000000001⟩),
        line := 4294967295, rawText := "добавить", text := "add d65535.251" },
      { operation := .unary .move, destination := some .stackPointer,
        left := some (.literal ⟨0x7FF0000000000001⟩), right := some (.literal ⟨0x8000000000000000⟩),
        line := 0 }]

theorem transport_lossless_extremes :
    extremes.Sized ∧ ofBytes (extremes.toBytes ++ [1, 2, 3]) = .ok extremes ∧
      ofBase64 ("　\t" ++ extremes.toBase64 ++ " \n") = .ok extremes := by
  have hs : extremes.Sized := by decide +kernel
  obtain ⟨hb, ht⟩ := transport_lossless extremes hs
  refine ⟨hs, hb [1, 2, 3], ht "　\t" " \n" ?_ ?_⟩
  · simp [Text.isBlank, Text.blankRanges]
  · simp [Text.isBlank, Text.blankRanges]

/-- Bytes that end inside a program are not read as a program. Hence neither of two programs is carried by the
beginning of the other's binary form. -/
theorem truncated_refused (p : Program) (hp : p.Sized) :
    (∀ k < p.toBytes.length, ofBytes (p.toBytes.take k) = .error (.bytes .unexpectedEnd)) ∧
      ∀ q : Program, q.Sized → p ≠ q → ¬ p.toBytes <+: q.toBytes ∧ ¬ q.toBytes <+: p.toBytes := by
  refine ⟨fun k hk => ofBytes_take hp hk, fun q hq hne => ⟨?_, ?_⟩⟩
  · rintro ⟨rest, h⟩
    have := ofBytes_toBytes_append hp rest
    rw [h, ofBytes_toBytes hq] at this
    exact hne (Except.ok.inj this).symm
  · rintro ⟨rest, h⟩
    have := ofBytes_toBytes_append hq rest
    rw [h, ofBytes_toBytes hp] at this
    exact hne (Except.ok.inj this)

/-- The binary form of `extremes`, cut inside a literal and inside a text. -/
theorem truncated_refused_extremes :
    extremes.Sized ∧ extremes.toBytes.length = 109 ∧
      ofBytes (extremes.toBytes.take 40) = .error (.bytes .unexpectedEnd) ∧
      ofBytes (extremes.toBytes.take 55) = .error (.bytes .unexpectedEnd) ∧
      ¬ extremes.toBytes <+: extremes.stripped.toBytes := by
  have hs : extremes.Sized := by decide +kernel
  have hlen : extremes.toBytes.length = 109 := by decide +kernel
  obtain ⟨hcut, hother⟩ := truncated_refused extremes hs
  exact ⟨hs, hlen, hcut 40 (by omega), hcut 55 (by omega),
    (hother extremes.stripped (by decide +kernel) (by decide +kernel)).1⟩

end Program

end VirtualProcessor
