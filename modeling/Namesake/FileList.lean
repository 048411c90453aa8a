import Namesake.Disk.Walk
import Namesake.Freshness
import Namesake.Glob
import Namesake.Settings

/-!
The source files of a project that are to be checked. The files below the root are met in the order of
the walk; of several paths to one file the first one stands for it, and it is listed if it passes the
patterns and, where asked for, lies below a given directory or is not known to be right.
-/

namespace Namesake

/-- Which files of a project are listed: those below the root that match one of the patterns `included`, if
there are any, and none of the patterns `excluded`. With `followLinks` links to directories are entered. -/
structure FileList where
  root : Path
  included : List String
  excluded : List String
  followLinks : Bool
  deriving DecidableEq, Repr, Inhabited

namespace FileList

def ofSettings (s : Settings) : FileList :=
  ⟨s.root, s.included, s.excluded, s.followLinks⟩

/-- The path as seen from a root, or the whole path. -/
def relative (root p : Path) : String :=
  ((p.relativeTo? root).getD p).render

def admits (l : FileList) (p : Path) : Bool :=
  let name := relative l.root p
  (l.included = [] || Glob.matchesAny name l.included)
    && (l.excluded = [] || !Glob.matchesAny name l.excluded)

/-- The source files that are met below the root. -/
def sources (l : FileList) (d : Disk) : List Path :=
  ((d.filesBelow l.followLinks l.root.names).map Path.ofPlace).filter Language.isSource

/-- Does the place lie in a directory, or is it that directory? -/
def isWithin (p dir : Path) : Bool :=
  (Path.dropFront? dir.names p.names).isSome

/-- What a file has to be besides a match of the patterns: nothing more, below a directory, or not known to
be right. -/
inductive Scope where
  | everything
  | below (dir : Path)
  | stale (known : Freshness)
  deriving DecidableEq, Repr, Inhabited

/-- Is the file, which leads to `true`, in the scope? -/
def Scope.holds (s : Scope) (v : Vantage) (p resolved : Path) : Except Failure Bool :=
  match s with
  | .everything => .ok true
  | .below dir => .ok (isWithin resolved dir)
  | .stale known => (known.isFresh v p).map (!·)

/-- The files to list among those that are met; `seen` holds the true paths of those before. -/
def choose (l : FileList) (v : Vantage) (s : Scope) (seen : List Path) :
    List Path → Except Failure (List Path)
  | [] => .ok []
  | p :: ps =>
    match v.resolve p with
    | .error e => .error e
    | .ok resolved =>
      if seen.contains resolved then choose l v s seen ps
      else if l.admits p then
        match s.holds v p resolved with
        | .error e => .error e
        | .ok keep =>
          -- a file out of scope still stands for the later paths that lead to it
          (choose l v s (resolved :: seen) ps).map fun rest => if keep then p :: rest else rest
      else choose l v s (resolved :: seen) ps

/-- The scope that a request for a part of the project, or for what is not known to be right, means. -/
def scopeOf (v : Vantage) (known : Option Freshness) (sub : Option Path) : Except Failure Scope :=
  match sub, known with
  | some p, _ => (v.resolve p).map .below
  | none, some f => .ok (.stale f)
  | none, none => .ok .everything

/-- The files to check, in order. A part of the project that is a file is that file alone. -/
def files (l : FileList) (v : Vantage) (known : Option Freshness) (sub : Option Path) :
    Run (List Path) :=
  let single : Except Failure Bool :=
    match sub with
    | some p => v.isFile p
    | none => .ok false
  match single with
  | .error e => .quiet (.error e)
  | .ok true => .quiet (.ok sub.toList)
  | .ok false =>
    match (scopeOf v known sub).bind fun scope => choose l v scope [] (l.sources v.disk) with
    | .error e => .quiet (.error e)
    | .ok found =>
      ⟨[⟨.debug, s!"Listed {found.length} file(s) under {l.root.render}"⟩], .ok (Path.sort found)⟩

end FileList

end Namesake
