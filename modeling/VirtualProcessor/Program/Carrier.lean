import VirtualProcessor.Coding.Base64
import VirtualProcessor.Coding.Bytes
import VirtualProcessor.Program
import VirtualProcessor.Text.Blank

/-!
# Programs as bytes and as text

The binary form of a program holds its parts in order: target, requirements, instructions. Bytes behind
the program do not matter to reading. The text form is the binary form in base64; blanks around it do
not matter either.
-/

namespace VirtualProcessor

/-- Why a program cannot be had from what holds it. -/
inductive CarrierError where
  | bytes (e : Coding.ReadError)
  | text (e : Coding.Base64.Fault)
  | file (path reason : String)
deriving DecidableEq, Repr

def CarrierError.message : CarrierError → String
  | bytes e => "Deserialization failed: " ++ e.word
  | text e => "Invalid base64 payload: " ++ e.message
  | file path reason => "I/O error on '" ++ path ++ "': " ++ reason

namespace Coding

/-- Words of thirty-two bits: counts, lines, numbers of alternatives. -/
def writeWord (n : UInt32) : List UInt8 := writeNat n.toNat

def readWord : Reader UInt32 := do
  let n ← readNat .word
  pure (UInt32.ofNat n)

def writeHalf (n : UInt16) : List UInt8 := writeNat n.toNat

def readHalf : Reader UInt16 := do
  let n ← readNat .half
  pure (UInt16.ofNat n)

def writeTarget : BuildTarget → List UInt8
  | .debug => writeNat 0
  | .release => writeNat 1

def readTarget : Reader BuildTarget := do
  match ← readNat .word with
  | 0 => pure .debug
  | 1 => pure .release
  | _ => Reader.fail .noAlternative

def writeOperation (op : Operation) : List UInt8 := writeNat op.code

def readOperation : Reader Operation := do
  match Operation.ofCode? (← readNat .word) with
  | some op => pure op
  | none => Reader.fail .noAlternative

def writeOperand : Operand → List UInt8
  | .literal value => writeNat 0 ++ writeBits value.bits
  | .hexLiteral value => writeNat 1 ++ writeSigned value
  | .register index => writeNat 2 ++ writeWord index
  | .stackPointer => writeNat 3
  | .returnAddress => writeNat 4
  | .device slot index => writeNat 5 ++ writeHalf slot ++ writeHalf index

def readOperand : Reader Operand := do
  match ← readNat .word with
  | 0 => do
    let bits ← readBits
    pure (.literal ⟨bits⟩)
  | 1 => do
    let value ← readSigned
    pure (.hexLiteral value)
  | 2 => do
    let index ← readWord
    pure (.register index)
  | 3 => pure .stackPointer
  | 4 => pure .returnAddress
  | 5 => do
    let slot ← readHalf
    let index ← readHalf
    pure (.device slot index)
  | _ => Reader.fail .noAlternative

def writeInstruction (i : Instruction) : List UInt8 :=
  writeOperation i.operation ++ writeOption writeOperand i.destination ++
    writeOption writeOperand i.left ++ writeOption writeOperand i.right ++ writeWord i.line ++
    writeText i.rawText ++ writeText i.text

def readInstruction : Reader Instruction := do
  let operation ← readOperation
  let destination ← readOption readOperand
  let left ← readOption readOperand
  let right ← readOption readOperand
  let line ← readWord
  let rawText ← readText
  let text ← readText
  pure { operation, destination, left, right, line, rawText, text }

def writeRequirements (r : Requirements) : List UInt8 :=
  writeWord r.registers ++ writeWord r.stack ++ writeWord r.devices ++ writeWord r.memory

def readRequirements : Reader Requirements := do
  let registers ← readWord
  let stack ← readWord
  let devices ← readWord
  let memory ← readWord
  pure { registers, stack, devices, memory }

def writeProgram (p : Program) : List UInt8 :=
  writeTarget p.target ++ writeRequirements p.requirements ++
    writeList writeInstruction p.instructions.toList

def readProgram : Reader Program := do
  let target ← readTarget
  let requirements ← readRequirements
  let instructions ← readList readInstruction
  pure { target, requirements, instructions := instructions.toArray }

end Coding

namespace Program

def toBytes (p : Program) : List UInt8 := Coding.writeProgram p

/-- The program at the front of a byte string. -/
def ofBytes (bytes : List UInt8) : Except CarrierError Program :=
  match Coding.readProgram bytes with
  | .ok (p, _) => .ok p
  | .error e => .error (.bytes e)

def toBase64 (p : Program) : String := Coding.Base64.encodeText p.toBytes

def ofBase64 (text : String) : Except CarrierError Program :=
  match Coding.Base64.decode (String.ofList (Text.trim text.toList)).toUTF8.data.toList with
  | .ok bytes => ofBytes bytes
  | .error e => .error (.text e)

end Program

end VirtualProcessor
