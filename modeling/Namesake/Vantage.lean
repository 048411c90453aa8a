import Namesake.Disk.Resolve
import Namesake.Failure

/-!
A disk as seen from a directory, the one that relative paths start from. What the system refuses here is
a failure that knows the path.
-/

namespace Namesake

/-- A disk as seen from a directory. -/
structure Vantage where
  disk : Disk
  cwd : Place
  deriving DecidableEq, Repr, Inhabited

namespace Vantage

def resolve (v : Vantage) (p : Path) : Except Failure Path :=
  if p.names.any Path.holdsNul then .error .nulInPath
  else
    match v.disk.resolve v.cwd p with
    | .ok q => .ok q
    | .error q => .error (.linkLoop q.render)

def read (v : Vantage) (p : Path) : Except Failure Octets :=
  if p.names.any Path.holdsNul then .error .nulInPath
  else
    match v.disk.read v.cwd p with
    | .ok data => .ok data
    | .error t => .error (.ofTrouble p t)

def write (v : Vantage) (p : Path) (content : Octets) : Except Failure Disk :=
  if p.names.any Path.holdsNul then .error .nulInPath
  else
    match v.disk.write v.cwd p content with
    | .ok d => .ok d
    | .error t => .error (.ofTrouble p t)

/-- Does the path lead to a file? A name that is too long is a failure; whatever else keeps the file
from being found is an answer. -/
def isFile (v : Vantage) (p : Path) : Except Failure Bool :=
  if p.names.any Path.holdsNul then .ok false
  else
    match v.disk.stat v.cwd p with
    | .ok (.file _) => .ok true
    | .ok _ => .ok false
    | .error .tooLong => .error (.ofTrouble p .tooLong)
    | .error _ => .ok false

end Vantage

end Namesake
