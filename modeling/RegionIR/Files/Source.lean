import RegionIR.Compile
import RegionIR.Files.Folder
import RegionIR.Text
/-!
# Source files

A source tree that was read from a file.
-/
namespace RegionIR

/-- A file that could not be read. -/
structure MissingSource where
  path : String
  reason : String

def MissingSource.diagnostic (m : MissingSource) : Diagnostic :=
  { message := s!"Missing source tree at {Text.quoted m.path}: {m.reason}", issuer := "hlir.source" }

structure SourceFile where
  name : String
  path : String
  content : String

namespace SourceFile

/-- The source file at a path, given what reading that path gave. -/
def ofContent (path : String) : Except FileFault String → Except MissingSource SourceFile
  | .ok content => .ok ⟨Path.fileName path, path, content⟩
  | .error fault => .error ⟨path, fault.message⟩

/-- Reads a source file in a folder. -/
def read (folder : Folder) (path : String) : Except MissingSource SourceFile :=
  ofContent path (folder.read path >>= textOfBytes)

/-- A line that describes the file. -/
def describe (s : SourceFile) : String := s!"Source tree: {s.name} at {Text.quoted s.path}"

end SourceFile

end RegionIR
