import VirtualProcessor.Program
import VirtualProcessor.Text.Padding

/-!
# Listings

A program as a table for a reader: one row per instruction, with its line, its statement, its encoded
form and, where the program still has them, the words it was assembled from.
-/

namespace VirtualProcessor.Program

def listingRow (index : Nat) (i : Instruction) : String :=
  Text.zeroPadded 4 index ++ ": L" ++ Text.padRight 5 (toString i.line.toNat) ++ " " ++
    Text.padRight 28 i.decoded ++ " " ++ i.encoded ++
    (if i.text.isEmpty then "" else "  ; " ++ i.text) ++ "\n"

def listingRequirements (r : Requirements) : String :=
  "requires:  " ++ toString r.registers.toNat ++ " registers, " ++ toString r.stack.toNat ++
    " stack, " ++ toString r.devices.toNat ++ " devices, " ++ toString r.memory.toNat ++ " memory\n"

def listing (p : Program) (name : String) : String :=
  "======== PROGRAM: " ++ name ++ " ========\n" ++
    "target:    " ++ p.target.name ++ "\n" ++
    listingRequirements p.requirements ++
    "\n--- INSTRUCTIONS ---\n" ++
    String.join (p.instructions.toList.zipIdx.map fun (i, index) => listingRow index i) ++
    "\n================ END OF PROGRAM ================\n"

end VirtualProcessor.Program
