import Namesake.Batch

/-!
Reports as text. A check is shown as one line for each file that could not be looked at, a table of the
findings if there are any, and a line of totals; a run of fixes as one line for each file that is changed
or could not be, and a line of totals.
-/

namespace Namesake.Report

def headings : List String := ["file", "line", "column", "severity", "message"]

/-- The cells of a finding in a file; lines and columns are counted from one. -/
def cells (path : Path) (l : Located) : List String :=
  [path.render, toString (l.start.row + 1), toString (l.start.column + 1),
    l.diagnostic.severity.word, l.diagnostic.message]

def rows (reports : List Report) : List (List String) :=
  reports.flatMap fun r => r.findings.map (cells r.path)

def total (reports : List Report) : Nat :=
  (rows reports).length

/-- The width of each column: that of its longest cell. -/
def widths (table : List (List String)) : List Nat :=
  table.foldl (List.zipWith fun w cell => max w cell.length) (headings.map String.length)

/-- A cell filled up with blanks, and with one on either side. -/
def cell (width : Nat) (s : String) : String :=
  " " ++ s ++ "".pushn ' ' (width - s.length + 1)

def row (bar : String) (widths : List Nat) (cells : List String) : String :=
  bar ++ bar.intercalate (List.zipWith cell widths cells) ++ bar

def rule (left fill cross right : String) (widths : List Nat) : String :=
  left ++ cross.intercalate (widths.map fun w => String.join (List.replicate (w + 2) fill)) ++ right

def table (content : List (List String)) : List String :=
  let ws := widths content
  rule "┏" "━" "┳" "┓" ws :: row "┃" ws headings :: rule "┡" "━" "╇" "┩" ws
    :: content.map (row "│" ws) ++ [rule "└" "─" "┴" "┘" ws]

/-- The lines for files that could not be looked at. -/
def errors (reports : List Report) : List String :=
  reports.filterMap fun r => r.error.map fun e => s!"Error {r.path.render}: {e.message}"

def lines (reports : List Report) : List String :=
  let content := rows reports
  errors reports ++ (if content = [] then [] else table content)
    ++ [s!"({content.length} diagnostics in {reports.length} files)"]

def isFailed (r : FixReport) : Bool :=
  r.error.isSome

/-- Is the file changed, or would it be? -/
def isChanged (r : FixReport) : Bool :=
  !isFailed r && !r.edits.isEmpty

/-- The line for a file of a run of fixes, if there is something to say. -/
def fixLine? (dry : Bool) (r : FixReport) : Option String :=
  match r.error with
  | some e => some s!"Failed {r.path.render}: {e.message}"
  | none =>
    if r.edits.isEmpty then none
    else
      let verb := if dry then "Would fix" else "Fixed"
      some s!"{verb} {r.path.render} ({r.edits.length} edit(s))"

def fixLines (dry : Bool) (reports : List FixReport) : List String :=
  let changed := reports.countP isChanged
  let failed := reports.countP isFailed
  reports.filterMap (fixLine? dry) ++ [s!"({changed} changed, {failed} failed, {reports.length} files)"]

def print (lines : List String) : String :=
  String.join (lines.map fun l => l ++ "\n")

end Namesake.Report
