import Namesake.Position
import Namesake.Reconciler

/-!
Checking and fixing many files. Each file gets one report, in the order of the paths; what goes wrong
with one file is reported and the others are still looked at. Only a circle of links ends the whole run.
Fixing returns the disk as it is afterwards.
-/

namespace Namesake

open Text

/-- A finding with its place by row and column. -/
structure Located where
  diagnostic : Diagnostic
  start : Position
  stop : Position
  deriving DecidableEq, Repr

/-- What was found in a file, or why it could not be looked at. -/
structure Report where
  path : Path
  findings : List Located
  error : Option Failure
  deriving DecidableEq, Repr

/-- What was changed in a file, or why it could not be fixed. -/
structure FixReport where
  path : Path
  edits : List Edit
  written : Bool
  error : Option Failure
  deriving DecidableEq, Repr, Inhabited

namespace Batch

def locate (data : Octets) (d : Diagnostic) : Located :=
  ⟨d, Position.ofOffset data d.range.start, Position.ofOffset data d.range.stop⟩

def checkFile (r : Reconciler) (v : Vantage) (p : Path) : Except Failure (Report × List Note) := do
  let u ← SourceUnit.ofFile v p.render none
  let (ds, notes) ← r.inspect v u
  return (⟨p, ds.map (locate (Utf8.encode u.text)), none⟩, notes)

/-- One file of a check: its report with notes, or the failure that ends the run. -/
def checkOne (r : Reconciler) (v : Vantage) (p : Path) : Except Failure (Report × List Note) :=
  match checkFile r v p with
  | .ok found => .ok found
  | .error e =>
    if e.isLocal then
      .ok (⟨p, [], some e⟩, [⟨.warning, s!"Could not read {p.render}: {e.message}"⟩])
    else .error e

def checkFiles (r : Reconciler) (v : Vantage) : List Path → Run (List Report)
  | [] => ⟨[], .ok []⟩
  | p :: ps =>
    match checkOne r v p with
    | .error e => ⟨[], .error e⟩
    | .ok (report, notes) =>
      let rest := checkFiles r v ps
      ⟨notes ++ rest.notes, rest.outcome.map (report :: ·)⟩

/-- What fixing a file gives: its report, the disk afterwards, and notes. -/
structure Fixed where
  report : FixReport
  disk : Disk
  notes : List Note
  deriving Repr, Inhabited

def writeEdited (v : Vantage) (p : Path) (text : String) (edits : List Edit) : Except Failure Disk :=
  match Edit.applyAll edits text with
  | .error e => .error (.edits e)
  | .ok patched => v.write p (Utf8.encode patched)

/-- Fixes a file, or only says how if `dry`. -/
def fixFile (r : Reconciler) (v : Vantage) (dry : Bool) (p : Path) : Except Failure Fixed := do
  let u ← SourceUnit.ofFile v p.render none
  let edits ← r.reconcile v u
  if edits.isEmpty || dry then return ⟨⟨p, edits, false, none⟩, v.disk, []⟩
  else
    let disk ← writeEdited v p u.text edits
    let note : Note := ⟨.info, s!"Fixed {p.render} ({edits.length} edit(s))"⟩
    return ⟨⟨p, edits, true, none⟩, disk, [note]⟩

/-- Is the failure about one file, so that the others can still be fixed? -/
def isIsolated (e : Failure) : Bool :=
  match e with
  | .unresolved _ => true
  | .noCandidate _ => true
  | _ => e.isLocal

/-- One file of a run of fixes: what it gives, or the failure that ends the run. -/
def fixOne (r : Reconciler) (v : Vantage) (dry : Bool) (p : Path) : Except Failure Fixed :=
  match fixFile r v dry p with
  | .ok f => .ok f
  | .error e =>
    if isIsolated e then
      let note : Note := ⟨.warning, s!"Could not fix {p.render}: {e.message}"⟩
      .ok ⟨⟨p, [], false, some e⟩, v.disk, [note]⟩
    else .error e

/-- Fixes files one after the other; with the outcome comes the disk afterwards. -/
def fixFiles (r : Reconciler) (dry : Bool) (v : Vantage) : List Path → Run (List FixReport) × Disk
  | [] => (⟨[], .ok []⟩, v.disk)
  | p :: ps =>
    match fixOne r v dry p with
    | .error e => (⟨[], .error e⟩, v.disk)
    | .ok f =>
      let (rest, disk) := fixFiles r dry { v with disk := f.disk } ps
      (⟨f.notes ++ rest.notes, rest.outcome.map (f.report :: ·)⟩, disk)

end Batch

end Namesake
