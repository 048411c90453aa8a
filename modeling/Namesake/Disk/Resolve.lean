import Namesake.Disk.Basic

/-!
The true place of a path: links replaced by what they lead to, double dots by the directory they mean.
Parts that do not exist stay as they are. Where a link leads back to itself the path cannot be resolved;
what is left is joined as text, and the path is then refused if the system runs into the loop too.
-/

namespace Namesake.Disk

/-- Follows names from a place. `active` holds the links that are being followed; one that is met again
ends the walk with the names that remain. The first argument bounds the depth of the walk. -/
def expand (d : Disk) : Nat → List Place → Place → List String → Except (List String) Place
  | 0, _, p, names => .error (p ++ names)
  | _ + 1, _, p, [] => .ok p
  | depth + 1, active, p, name :: rest =>
    if name = ".." then expand d depth active p.dropLast rest
    else
      let child := p ++ [name]
      match d.find? child with
      | some (.link target) =>
        if child ∈ active then .error (child ++ rest)
        else
          let t := Path.ofString target
          match expand d depth (child :: active) (if t.isAbsolute then [] else p) t.names with
          -- the link counts as followed only until its target is reached
          | .ok q => expand d depth active q rest
          | .error names => .error (names ++ rest)
      | _ => expand d depth active child rest

/-- A depth that no walk along `count` names can exceed: a walk inside another one follows a link that
the outer ones do not. -/
def depthBound (d : Disk) (count : Nat) : Nat :=
  d.nodes.foldl (fun n e =>
    match e.2 with
    | .link target => n + (Path.namesOf target.toList).length + 1
    | _ => n) (count + 1)

/-- The place of a path, as far as it can be told. -/
def placeOf (d : Disk) (cwd : Place) (p : Path) : Place :=
  let start := if p.isAbsolute then [] else cwd
  match d.expand (d.depthBound p.names.length) [] start p.names with
  | .ok q => q
  | .error names => (Path.normalize ⟨.root, names⟩).names

/-- The true path, or the path at which links run in a circle. -/
def resolve (d : Disk) (cwd : Place) (p : Path) : Except Path Path :=
  let q := Path.ofPlace (d.placeOf cwd p)
  match d.stat cwd q with
  | .error .tooManyLinks => .error q
  | _ => .ok q

end Namesake.Disk
