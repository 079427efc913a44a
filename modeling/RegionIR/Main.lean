import RegionIR.Command.Run
/-!
# The command line program
-/
namespace RegionIR.Command

/-- The fault behind a failed file operation. -/
def faultOf : IO.Error → FileFault
  | .noFileOrDirectory .. => .notFound
  | .inappropriateType _ 20 _ => .notDirectory
  | .inappropriateType _ 21 _ => .isDirectory
  | e => .other e.toString

/-- Runs a file operation and catches its failure. -/
def attempt {α : Type} (action : IO α) : IO (Except FileFault α) := do
  try return .ok (← action)
  catch e => return .error (faultOf e)

/-- The surroundings of a process. -/
def terminal : Console IO where
  read path := do return (← attempt (IO.FS.readBinFile path)) >>= textOfBytes
  write path content := attempt (IO.FS.writeFile path content)
  print := IO.print
  warn := IO.eprint

end RegionIR.Command

def main (args : List String) : IO UInt32 := do
  let exit ← RegionIR.Command.run RegionIR.Command.terminal args
  return UInt32.ofNat exit.code
