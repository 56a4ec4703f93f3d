import ShaderGraph.Command
/-!
The program: reads its arguments, compiles, and prints the result or writes it to files.
-/

namespace ShaderGraph

/-- Whether an action ends without an error. -/
def succeeds (action : IO Unit) : IO Bool :=
  try
    action
    return true
  catch _ => return false

/-- The machine that the program runs on. It has nothing to read programs with. -/
def machine : Host IO where
  read path :=
    try
      return some (← IO.FS.readFile path)
    catch _ => return none
  createFolders path := succeeds (IO.FS.createDirAll path)
  write path text := succeeds (IO.FS.writeFile path text)
  print text := IO.print text
  check _ := .ok ()

end ShaderGraph

open ShaderGraph in
def main (arguments : List String) : IO UInt32 := do
  let result ← match Command.parse arguments with
    | .error e => pure (.error e)
    | .ok c => c.perform machine
  match result with
  | .ok _ => return 0
  | .error e =>
    IO.eprintln ("Error: " ++ e.message)
    return 1
