import Namesake.Field

/-!
Findings about a source: what is wrong, how much it matters, and the octets it is about.
-/

namespace Namesake

/-- A range of octets. -/
structure Span where
  start : Nat
  stop : Nat
  ordered : start ≤ stop := by omega
  deriving DecidableEq, Repr

namespace Span

instance : Inhabited Span := ⟨⟨0, 0, Nat.le_refl 0⟩⟩

/-- Why two numbers are no range. -/
def disorder (start stop : Nat) : String :=
  s!"Range end {stop} precedes start {start}"

/-- The range between two numbers that are not negative, of which the second is not the smaller one. -/
def ofNats (start stop : Nat) : Field.Checked Span :=
  if h : start ≤ stop then .ok ⟨start, stop, h⟩ else Field.fail (.refused (disorder start stop))

def check (start stop : Int) : Field.Checked Span :=
  match Field.both (Field.within (.key "start") (Field.natural start))
      (Field.within (.key "end") (Field.natural stop)) with
  | .ok (a, b) => ofNats a b
  | .error ps => .error ps

end Span

/-- How much a finding matters. -/
inductive Severity where
  | error
  | warning
  | information
  | hint
  deriving DecidableEq, Repr, Inhabited

namespace Severity

/-- All severities, the gravest first. -/
def all : List Severity := [.error, .warning, .information, .hint]

def word : Severity → String
  | .error => "error"
  | .warning => "warning"
  | .information => "information"
  | .hint => "hint"

def ofWord? (s : String) : Option Severity :=
  all.find? fun v => v.word = s

theorem ofWord?_word (v : Severity) : ofWord? v.word = some v := by
  cases v <;> decide

end Severity

/-- A finding: the octets it is about, what it says, and how much it matters. -/
structure Diagnostic where
  range : Span
  message : String
  severity : Severity
  deriving DecidableEq, Repr

end Namesake
