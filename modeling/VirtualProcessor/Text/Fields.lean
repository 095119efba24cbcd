/-!
# Pieces of a text
-/

namespace VirtualProcessor.Text

/-- The pieces of a text between the characters that part it; there is always one more piece than parting
characters. -/
def fields (parts : Char → Bool) (cs : List Char) : List (List Char) :=
  cs.foldr (fun c pieces =>
    if parts c then [] :: pieces
    else
      match pieces with
      | [] => [[c]]
      | piece :: others => (c :: piece) :: others) [[]]

end VirtualProcessor.Text
