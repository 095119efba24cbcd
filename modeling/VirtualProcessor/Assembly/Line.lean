import VirtualProcessor.Assembly.Error
import VirtualProcessor.Text.Blank
import VirtualProcessor.Text.Fields

/-!
# Source lines

A line is its words. Blanks, tabs and carriage returns part words and mean nothing else; a semicolon or
a hash sign starts a comment. The passes of the assembler change the words of a line and mark the
lines that are dealt with.
-/

namespace VirtualProcessor.Assembly

/-- The lines of a source. -/
def splitLines (source : String) : List (List Char) := Text.fields (· == '\n') source.toList

def isSeparator (c : Char) : Bool := c == ' ' || c == '\t' || c == '\r'

def startsComment (c : Char) : Bool := c == ';' || c == '#'

/-- The part of a line in front of its comment. Where there is a comment, blanks of every kind in front of
it belong to it. -/
def beforeComment (cs : List Char) : List Char :=
  if cs.any startsComment then Text.trimEnd (cs.takeWhile (!startsComment ·)) else cs

/-- The words of a line. -/
def wordsOf (cs : List Char) : List String :=
  ((Text.fields isSeparator (beforeComment cs)).filter (!·.isEmpty)).map String.ofList

def textOf (words : List String) : String := " ".intercalate words

/-- One line of the source being assembled. -/
structure Line where
  /-- The words as they were written. -/
  raw : List String
  /-- The words as the passes have left them. -/
  words : List String
  /-- Whether the line is dealt with and yields no instruction. -/
  consumed : Bool
deriving DecidableEq, Repr

namespace Line

/-- A line as it is read; one without words is dealt with at once. -/
def ofWords (words : List String) : Line := ⟨words, words, words.isEmpty⟩

def text (l : Line) : String := textOf l.words

def location (l : Line) (number : Nat) : Location := ⟨UInt32.ofNat number, l.text⟩

end Line

end VirtualProcessor.Assembly
