import VirtualProcessor.FileTree
import VirtualProcessor.Program.Carrier

/-!
# Programs in files

A program is stored in its binary form or as base64 text. Which of the two a file holds is told by its
content: text that is not blank is taken for base64.
-/

namespace VirtualProcessor.Program

/-- The program that the content of a file holds, in whichever form. -/
def ofContent (bytes : List UInt8) : Except CarrierError Program :=
  match Files.decodeText bytes with
  | some text => if (Text.trim text.toList).isEmpty then ofBytes bytes else ofBase64 text
  | none => ofBytes bytes

/-- The program in a file, with its content read as told. -/
def ofFileWith (read : List UInt8 → Except CarrierError Program) (files : Files) (path : String) :
    Except CarrierError Program :=
  match files.bytes path with
  | .ok bytes => read bytes
  | .error reason => .error (.file path reason)

/-- The program in a file that holds the binary form. -/
def ofFile (files : Files) (path : String) : Except CarrierError Program :=
  ofFileWith ofBytes files path

/-- Stores the binary form of a program in a file. -/
def save (p : Program) (tree : FileTree) (path : String) : Except CarrierError FileTree :=
  (tree.write path p.toBytes).mapError fun e => .file path e.message

end VirtualProcessor.Program
