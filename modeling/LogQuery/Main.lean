import LogQuery.CommandLine.Run

/-! The program: its arguments, standard input and files. -/
open LogQuery

namespace LogQuery.Program

/-- What an action gives, or a default where the system refuses it. -/
def attempt {α : Type} (default : α) (action : IO α) : IO α :=
  try action catch _ => return default

def disk : Disk IO where
  isThere path := attempt false do
    (← IO.FS.realPath (String.ofList path)).pathExists
  isFolder path := attempt false do
    (← IO.FS.realPath (String.ofList path)).isDir
  names path := attempt [] do
    let entries ← (← IO.FS.realPath (String.ofList path)).readDir
    return entries.toList.map fun e => e.fileName.toList
  read? path := attempt none do
    return some (← IO.FS.readFile (String.ofList path)).toList
  depth := 4096

def get? (name : Text) : IO (Option Text) :=
  return (← IO.getEnv (String.ofList name)).map String.toList

partial def readLines (stream : IO.FS.Stream) (before : String) : IO String := do
  let line ← stream.getLine
  if line.isEmpty then return before else readLines stream (before ++ line)

def input : IO (Option Text) := attempt none do
  return some (← readLines (← IO.getStdin) "").toList

def world : IO (CommandLine.World IO) :=
  return ⟨disk, ⟨← get? "HOME".toList, get?⟩, input⟩

end LogQuery.Program

def main (args : List String) : IO UInt32 := do
  let outcome ← CommandLine.run (← Program.world) (args.map String.toList)
  (← IO.getStdout).putStr (String.ofList outcome.output)
  return outcome.status.toUInt32
