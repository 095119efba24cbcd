/-!
# Files within reach

What a reader of files can get: the bytes behind a path, or the reason why there are none. Paths are
texts whose steps are parted by slashes.
-/

namespace VirtualProcessor

structure Files where
  bytes : (path : String) → Except String (List UInt8)

namespace Files

/-- The text that bytes stand for in UTF-8. -/
def decodeText (bytes : List UInt8) : Option String := String.fromUTF8? ⟨bytes.toArray⟩

/-- The text behind a path. -/
def text (f : Files) (path : String) : Except String String := do
  let bytes ← f.bytes path
  match decodeText bytes with
  | some s => .ok s
  | none => .error "stream did not contain valid UTF-8"

/-- A path below a directory. A path that starts at the root leaves the directory behind. -/
def join (directory path : String) : String :=
  if path.toList.head? = some '/' ∨ directory.isEmpty then path
  else if directory.toList.getLast? = some '/' then directory ++ path
  else directory ++ "/" ++ path

/-- The directory part of a path, with the slash at its end; empty for a path of one step. -/
def directoryOf (path : String) : String :=
  String.ofList (path.toList.reverse.dropWhile (· != '/')).reverse

end Files

end VirtualProcessor
