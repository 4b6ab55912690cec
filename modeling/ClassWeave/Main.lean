import ClassWeave.CommandLine.Run

/-!
# The program

Reads the files that the command line names, runs the command, and prints and writes what comes of
it.
-/

namespace ClassWeave.CommandLine

/-- The bytes of a file on disk, or why there are none. -/
def readFile (path : String) : IO (Except FileError (List UInt8)) := do
  try
    return .ok (← IO.FS.readBinFile path).toList
  catch _ =>
    return .error .notFound

/-- Writes a file on disk, and makes the directories that it is in. -/
def writeFile (path : String) (bytes : List UInt8) : IO Unit := do
  let directory := Path.parent path
  if directory ≠ "" then IO.FS.createDirAll directory
  IO.FS.writeBinFile path ⟨bytes.toArray⟩

/-- What a command reads, each file once. -/
def readSources (c : Command) : IO (String → Except FileError (List UInt8)) := do
  let table ← c.sources.mapM fun path => return (path, ← readFile path)
  return fun path => (table.lookup path).getD (.error .notFound)

/-- Prints and writes what comes of a command. -/
def deliver (r : Report) : IO UInt32 := do
  IO.print r.output
  if let some message := r.complaint then IO.eprintln ("error: " ++ message)
  if let some (path, bytes) := r.written then
    try
      writeFile path bytes
    catch e =>
      IO.eprintln ("error: " ++ toString e)
      return 1
  return r.exitCode.toUInt32

end ClassWeave.CommandLine

open ClassWeave.CommandLine in
/-- Runs the program. -/
def main (args : List String) : IO UInt32 := do
  match parse args with
  | .error stop => deliver (.ofStop stop)
  | .ok c => deliver (c.run (← readSources c))
