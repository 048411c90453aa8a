import Namesake.Correction
import Namesake.Note
import Namesake.Resolver
import Namesake.SourceUnit

/-!
What a source has to change so that it declares the class that its path stands for. `compute` is the one
decision; `reconcile` gives the edits and fails when no class name can be told, `inspect` gives findings
and is silent then.
-/

namespace Namesake

open Syntax

/-- The two things a decision is made from: the best class name of a path, and the tree of a text. -/
structure Reconciler where
  best : Vantage → String → Except Failure (Except NoCandidate ClassName)
  parse : String → Tree

namespace Reconciler

/-- The path of a source that is a file. -/
def filePath (u : SourceUnit) : Except Unresolved String :=
  match u.location with
  | none => .error .noLocation
  | some l => if l.scheme = Location.fileScheme then .ok l.path else .error (.notFile l.scheme)

/-- What a source has to change, or why that cannot be told. -/
def compute (r : Reconciler) (v : Vantage) (u : SourceUnit) :
    Except Failure (Except Unresolved Corrections) :=
  match filePath u with
  | .error why => .ok (.error why)
  | .ok path =>
    match r.best v path with
    | .error e => .error e
    | .ok (.error cause) => .ok (.error (.noName path cause))
    | .ok (.ok className) =>
      match Corrections.ofTree (r.parse u.text) className with
      | .ok c => .ok (.ok c)
      | .error ps => .error (.invalid ps)

def reconcile (r : Reconciler) (v : Vantage) (u : SourceUnit) : Except Failure (List Edit) :=
  match r.compute v u with
  | .error e => .error e
  | .ok (.error why) => .error (.unresolved why)
  | .ok (.ok c) => .ok c.edits

def silence (u : SourceUnit) (why : Unresolved) : Note :=
  let path := u.path?.getD "None"
  ⟨.debug, s!"No diagnostics for {path}: {why.message}"⟩

/-- The findings about a source, and the notes of the search. -/
def inspect (r : Reconciler) (v : Vantage) (u : SourceUnit) :
    Except Failure (List Diagnostic × List Note) :=
  match r.compute v u with
  | .error e => .error e
  | .ok (.error why) => .ok ([], [silence u why])
  | .ok (.ok c) =>
    match c.diagnostics with
    | .ok ds => .ok (ds, [])
    | .error ps => .error (.invalid ps)

def ofResolver (r : Resolver) (parse : String → Tree) : Reconciler :=
  ⟨fun v path => r.best v path, parse⟩

end Reconciler

end Namesake
