import Namesake.Host.Act
import Namesake.Batch

/-!
Tools for agents: `reconcile` gives the edits of a text, `inspect` its findings, and `fixFile` changes a
file. What a tool can say about its input it says as text; any other failure is a failure of the call.
-/

namespace Namesake.Host.Tools

open Schema Json

def errorText (e : Failure) : Value :=
  .text ("Error: " ++ e.message)

def unit (text : String) (path : Option String) : Except Failure SourceUnit :=
  (locationOf path).map (SourceUnit.ofText text)

/-- Can a tool that edits texts say this about its input? -/
def isAnswer : Failure → Bool
  | .unresolved _ => true
  | .noCandidate _ => true
  | _ => false

def reconcile (r : Reconciler) (text : String) (path : Option String) : Act Value := do
  let u ← Act.demand (unit text path)
  match r.reconcile (← Act.vantage) u with
  | .ok edits => return .list (edits.map ofEdit)
  | .error e => if isAnswer e then return errorText e else throw e

def inspect (r : Reconciler) (text : String) (path : Option String) : Act Value := do
  let u ← Act.demand (unit text path)
  let (ds, notes) ← Act.demand (r.inspect (← Act.vantage) u)
  Act.note notes
  return .list (ds.map ofDiagnostic)

def fixText (path : String) (dry : Bool) (report : FixReport) : String :=
  if report.edits.isEmpty then s!"{path} is already correct"
  else
    let verb := if dry then "Would apply" else "Applied"
    s!"{verb} {report.edits.length} edit(s) to {path}"

/-- Changes a file, or only says how if `dry`. -/
def fixFile (r : Reconciler) (path : String) (dry : Bool) : Act Value := do
  match Batch.fixFile r (← Act.vantage) dry (Path.ofString path) with
  | .ok f =>
    Act.setDisk f.disk
    Act.note f.notes
    return .text (fixText path dry f.report)
  | .error e => if Batch.isIsolated e then return errorText e else throw e

end Namesake.Host.Tools
