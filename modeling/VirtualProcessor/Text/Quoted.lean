import VirtualProcessor.Number.Numeral

/-!
# Quoted text

Text between double quotes, as it stands in a trace record. The quote and the backslash get a
backslash, control characters below the blank get their short escape or four hexadecimal digits, and
every other character stands for itself.
-/

namespace VirtualProcessor.Text

/-- A hexadecimal digit in lower case. -/
def lowerHex (d : Nat) : Char :=
  if d < 10 then Char.ofNat (48 + d) else Char.ofNat (87 + d)

def escape (c : Char) : List Char :=
  if c = '"' then ['\\', '"']
  else if c = '\\' then ['\\', '\\']
  else if c = '\x08' then ['\\', 'b']
  else if c = '\x0c' then ['\\', 'f']
  else if c = '\n' then ['\\', 'n']
  else if c = '\r' then ['\\', 'r']
  else if c = '\t' then ['\\', 't']
  else if c.toNat < 0x20 then ['\\', 'u', '0', '0', lowerHex (c.toNat / 16), lowerHex (c.toNat % 16)]
  else [c]

def quoted (s : String) : String :=
  String.ofList ('"' :: s.toList.flatMap escape ++ ['"'])

end VirtualProcessor.Text
