import ContextFree.CommandLine

/-!
The program: reads the file that the arguments name, if there is one, and writes what `Invocation.execute` says.
-/

namespace ContextFree.CommandLine

/-- the bytes of a file, if it can be read -/
def readFile? (name : String) : IO (Option ByteArray) := do
  try
    return some (← IO.FS.readBinFile name)
  catch _ =>
    return none

end ContextFree.CommandLine

open ContextFree.CommandLine in
def main (args : List String) : IO UInt32 := do
  let effect? ← match Invocation.ofArgs? args with
    | none => pure (some refusal)
    | some invocation => pure (invocation.execute (← readFile? invocation.grammar))
  match effect? with
  | none => return 0
  | some effect =>
    IO.print effect.out
    IO.eprint effect.err
    return effect.code.toUInt32
