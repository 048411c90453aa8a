import Namesake.Failure

/-!
Notes for those who run the program, and runs that make them. A run keeps its notes also when it ends
with a failure.
-/

namespace Namesake

/-- How much a note matters. -/
inductive Level where
  | debug
  | info
  | warning
  | error
  deriving DecidableEq, Repr, Inhabited

def Level.word : Level → String
  | .debug => "DEBUG"
  | .info => "INFO"
  | .warning => "WARNING"
  | .error => "ERROR"

/-- A note for those who run the program. -/
structure Note where
  level : Level
  text : String
  deriving DecidableEq, Repr, Inhabited

def Note.render (n : Note) : String :=
  n.level.word ++ " " ++ n.text

/-- The outcome of a run and the notes it made, in order, up to a failure if it ended with one. -/
structure Run (α : Type) where
  notes : List Note
  outcome : Except Failure α

/-- The same run after other notes. -/
def Run.after {α : Type} (notes : List Note) (r : Run α) : Run α :=
  ⟨notes ++ r.notes, r.outcome⟩

namespace Run

def quiet {α : Type} (outcome : Except Failure α) : Run α :=
  ⟨[], outcome⟩

/-- One run after another that needs its value; the notes of both are kept. -/
def andThen {α β : Type} (r : Run α) (f : α → Run β) : Run β :=
  match r.outcome with
  | .error e => ⟨r.notes, .error e⟩
  | .ok a => (f a).after r.notes

end Run

end Namesake
