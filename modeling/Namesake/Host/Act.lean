import Namesake.Resolver
import Namesake.Settings

/-!
Actions of a host. An action may change the disk, print lines and make notes, and it may fail; what it
has done up to a failure stays done.
-/

namespace Namesake.Host

/-- What an action works on: the surroundings, the disk, and what has been said so far. The resolver that
requests share is there once one of them has needed it. -/
structure Scene where
  disk : Disk
  cwd : Place
  environment : Environment
  printed : List String
  notes : List Note
  shared : Option Resolver
  deriving Repr, Inhabited

abbrev Act (α : Type) := ExceptT Failure (StateM Scene) α

namespace Act

/-- The disk as an action sees it. -/
def vantage : Act Vantage := do
  let s ← get
  return ⟨s.disk, s.cwd⟩

/-- A value, or a failure of the action. -/
def demand {α : Type} (outcome : Except Failure α) : Act α :=
  match outcome with
  | .ok a => return a
  | .error e => throw e

def note (notes : List Note) : Act Unit :=
  modify fun s => { s with notes := s.notes ++ notes }

def say (lines : List String) : Act Unit :=
  modify fun s => { s with printed := s.printed ++ lines }

def setDisk (d : Disk) : Act Unit :=
  modify fun s => { s with disk := d }

/-- Does a run: keeps its notes and takes its value. -/
def perform {α : Type} (r : Run α) : Act α := do
  note r.notes
  demand r.outcome

end Act

end Namesake.Host
