import Namesake.Host.CommandLine
import Namesake.Php

/-!
The program. It reads what lies below the current directory, and below each path on the command line,
into a disk, lets the command line work on that, writes the files that have changed, and prints what was
said. Nothing is decided here.
-/

namespace Namesake.Program

open Host

abbrev Entry := Place × Namesake.Node

/-- The directories on the way to a place. -/
def directories (p : Place) : List Entry :=
  (List.range p.length).map fun n => (p.take n, .directory)

/-- What is at a place and below it. A link to a file counts as that file; a link to a directory, and what
cannot be read, is left out. -/
partial def load (p : Place) : IO (List Entry) := do
  try
    let path ← IO.FS.realPath (Path.ofPlace p).render
    if ← path.isDir then
      let below ← (← path.readDir).toList.mapM fun e => do
        let link := (← e.path.symlinkMetadata).type == .symlink
        if link && (← e.path.isDir) then pure [] else load (p ++ [e.fileName])
      return (p, .directory) :: below.flatten
    else
      return [(p, .file (← IO.FS.readBinFile path).toList)]
  catch _ => return []

/-- The place of a path, from a directory. -/
def placeFrom (cwd : Place) (s : String) : Place :=
  ((Path.ofPlace cwd).join (Path.ofString s)).normalize.names

/-- The scene that the program begins with. -/
def scene (args : List String) : IO Scene := do
  let cwd := (Path.ofString (← IO.currentDir).toString).names
  let named := (cwd :: (args.flatMap fun a => a.splitOn "=").map (placeFrom cwd)).eraseDups
  let places := named.filter fun p => named.all fun q => q == p || (Path.dropFront? q p).isNone
  let above := (places.flatMap directories).eraseDups
  let below ← places.mapM load
  let environment ← Settings.variableNames.filterMapM fun v => return (← IO.getEnv v).map (v, ·)
  return ⟨⟨(above ++ below.flatten).filter fun e => !e.1.isEmpty⟩, cwd, environment, [], [], none⟩

/-- Writes the files that are in one disk and not the same in another. -/
def store (old new : Disk) : IO Unit :=
  for (p, n) in new.nodes do
    match n with
    | .file content =>
      if old.find? p != some n then
        IO.FS.createDirAll (Path.ofPlace p.dropLast).render
        IO.FS.writeBinFile (Path.ofPlace p).render ⟨content.toArray⟩
    | _ => pure ()

end Namesake.Program

open Namesake Host in
/-- Does what the arguments ask for; the answer is the status for the caller. -/
def main (args : List String) : IO UInt32 := do
  let before ← Program.scene args
  let (ending, after) := CommandLine.run Php.parse args [] before
  Program.store before.disk after.disk
  after.printed.forM fun line => IO.println line
  (after.notes.filter (CommandLine.shows args)).forM fun n => IO.eprintln n.text
  match ending with
  | .status code => return code.toUInt32
  | .failed e =>
    IO.eprintln e.message
    return CommandLine.trouble.toUInt32
