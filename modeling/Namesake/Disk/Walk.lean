import Namesake.Disk.Basic

/-!
All files below a directory: first those in it, by name, then those of each directory in it, by name.
What cannot be listed is passed over. Links to directories are entered only on demand, and then until
the system refuses to go through more of them, so a circle of links ends.
-/

namespace Namesake.Disk

/-- Is it a directory that is not reached through a link at the end? -/
def isPlainDirectory (d : Disk) (p : Place) : Bool :=
  match d.look [] false (Path.ofPlace p) with
  | .ok (.present _ .directory) => true
  | _ => false

/-- The files below the directory `top`. The first argument bounds the depth. -/
def walk (d : Disk) (links : Bool) : Nat → Place → List Place
  | 0, _ => []
  | depth + 1, top =>
    match d.look [] true (Path.ofPlace top) with
    | .ok (.present here .directory) =>
      -- a link to a directory counts as one here, also where it is not entered
      let (dirs, files) :=
        (d.children here).partition fun n => d.isDirectory [] (Path.ofPlace (top ++ [n]))
      let entered := dirs.filter fun n => links || d.isPlainDirectory (top ++ [n])
      files.map (fun n => top ++ [n]) ++ entered.flatMap fun n => walk d links depth (top ++ [n])
    | _ => []

/-- A depth that no walk exceeds: between two links the path grows by less than the number of nodes. -/
def walkBound (d : Disk) : Nat :=
  (linkLimit + 2) * (d.nodes.length + 1)

/-- The files below a directory. -/
def filesBelow (d : Disk) (links : Bool) (top : Place) : List Place :=
  d.walk links d.walkBound top

end Namesake.Disk
