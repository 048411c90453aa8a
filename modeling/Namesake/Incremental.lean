import Namesake.FileList
import Namesake.Batch

/-!
Checks that pass over files known to be right. After such a check the record holds the content of the
files that were looked at and found right, and nothing about those that were not.
-/

namespace Namesake.Incremental

def isClean (r : Report) : Bool :=
  r.error.isNone && r.findings.isEmpty

/-- The record after the report of a file. -/
def settle (v : Vantage) (known : Freshness) (r : Report) : Except Failure Freshness :=
  if isClean r then known.mark v r.path else known.forget v r.path

def settleAll (v : Vantage) (known : Freshness) (reports : List Report) : Except Failure Freshness :=
  reports.foldlM (settle v) known

end Namesake.Incremental
