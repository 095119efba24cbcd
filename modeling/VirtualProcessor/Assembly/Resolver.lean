import VirtualProcessor.Assembly.Inclusion
import VirtualProcessor.Files

/-!
# Where other files come from
-/

namespace VirtualProcessor.Assembly.Resolver

/-- Files known by name. -/
def ofFiles (files : List (String × String)) : Resolver where
  find _ name :=
    match files.lookup name with
    | some source => .succeed source
    | none => .fail ()

/-- The extension of source files, for names that have none. -/
def withExtension (name : String) : String :=
  if name.toList.contains '.' then name else name ++ ".na"

/-- Files of a directory. A file that cannot be read is reported. -/
def ofDirectory (files : Files) (directory : String) : Resolver where
  find _ name :=
    let path := Files.join directory (withExtension name)
    match files.text path with
    | .ok source => .succeed source
    | .error reason => ⟨[.unreadable path reason], .error ()⟩

end VirtualProcessor.Assembly.Resolver
