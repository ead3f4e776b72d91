import FormulaCalculus.CommandLine.Run

/-!
# The program

A run depends on the disk only through the file it reads and through whether it can write, so the
file is read first, and a drawing that cannot be written shows in a second run.
-/

namespace FormulaCalculus.CommandLine

/-- The fault that a failure of the disk at a path amounts to. -/
def diskFault (path : String) : IO.Error → Fault
  | .inappropriateType .. => .isDirectory path
  | _ => .noSuchFile path

/-- The bytes of the file at a path. -/
def readBytes (path : String) : IO (Except Fault (List UInt8)) := do
  try return .ok (← IO.FS.readBinFile path).toList
  catch e => return .error (diskFault path e)

def writeText (path text : String) : IO (Except Fault Unit) := do
  try return .ok (← IO.FS.writeFile path text)
  catch e => return .error (diskFault path e)

/-- Runs the words of a command line and writes what the run yields. -/
def serve (words : List String) : IO UInt32 := do
  let input ← match Options.parse words with
    | .ok { input := some path, .. } => readBytes path
    | _ => pure (.ok [])
  let result := fun writable => run words { read := fun _ => input, writable := fun _ => writable }
  let mut r := result (.ok ())
  if let some (path, text) := r.drawing then
    if let .error fault ← writeText path text then
      r := result (.error fault)
  IO.print r.stdout
  IO.eprint r.stderr
  match r.exit with
  | .ok n => return n.toUInt32
  | .error fault =>
    IO.eprintln fault.message
    return 1

end FormulaCalculus.CommandLine

def main (words : List String) : IO UInt32 :=
  FormulaCalculus.CommandLine.serve words
