import Reclaim.Program

/-!
# The executable
-/

open Reclaim

namespace Reclaim.Host

/-- A directory and those above it, innermost first. -/
def ancestors (dir : String) : List String :=
  let parts := (dir.splitOn "/").filter (· != "")
  (List.range (parts.length + 1)).reverse.map fun n => "/" ++ String.intercalate "/" (parts.take n)

/-- What a file holds. -/
def lookAt (path : String) : IO Entry := do
  try
    return .text (← IO.FS.readFile path)
  catch
    | .noFileOrDirectory .. => return .missing
    | _ => return .unreadable

/-- Evaluates between two looks at the clock. -/
def measure {α : Type} (f : Unit → α) : IO (α × Duration) := do
  let started ← IO.monoNanosNow
  let a ← IO.lazyPure f
  let finished ← IO.monoNanosNow
  return (a, (Duration.ofParts 0 (finished - started)).toOption.getD .zero)

/-- The machine the program runs on. -/
def system : Host IO where
  look := lookAt
  directories := do return ancestors (← IO.currentDir).toString
  timed := measure

end Reclaim.Host

def main (args : List String) : IO UInt32 := do
  let outcome ← program Host.system args
  (← IO.getStdout).putStr outcome.out
  (← IO.getStderr).putStr outcome.err
  return outcome.code
