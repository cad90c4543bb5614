import MobileCode.CommandLine

open MobileCode

/-- The files of the machine. -/
def machineFiles : FileAccess IO where
  read path := do
    match ← (IO.FS.readBinFile path).toBaseIO with
    | .ok data => return some data.data.toList
    | .error _ => return none
  write path data := do
    match ← (IO.FS.writeBinFile path ⟨data.toArray⟩).toBaseIO with
    | .ok _ => return true
    | .error _ => return false
  createDirectories path := do
    match ← (IO.FS.createDirAll path).toBaseIO with
    | .ok _ => return true
    | .error _ => return false

def main (args : List String) : IO UInt32 := do
  let outcome ← CommandLine.run machineFiles args
  IO.print outcome.output
  match outcome.failure with
  | some text => IO.eprintln ("Error: " ++ text)
  | none => pure ()
  return UInt32.ofNat outcome.exit
