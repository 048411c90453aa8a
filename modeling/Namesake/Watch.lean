import Namesake.FileList
import Namesake.Report

/-!
Watching a project. Changes come in batches; of each batch the changed source files, deleted and excluded
ones aside, are handed on together, and a failure of the one that takes them is noted and does no more
harm. A session starts and stops the watch; while it is on, it works through its batches in order.
-/

namespace Namesake

/-- What happened to a file. -/
inductive ChangeKind where
  | added
  | modified
  | deleted
  deriving DecidableEq, Repr, Inhabited

/-- A change of a file. -/
structure Change where
  kind : ChangeKind
  path : Path
  deriving DecidableEq, Repr, Inhabited

/-- Which changes are watched: those of files below a directory, save for files that match a pattern as seen
from it. -/
structure Watch where
  directory : Path
  excluded : List String
  deriving DecidableEq, Repr, Inhabited

namespace Watch

def ofSettings (s : Settings) : Watch :=
  ⟨s.root, s.excluded⟩

def wants (w : Watch) (c : Change) : Bool :=
  c.kind != .deleted && Language.isSource c.path
    && (w.excluded = [] || !Glob.matchesAny (FileList.relative w.directory c.path) w.excluded)

/-- The files of a batch that are handed on, each once. -/
def wanted (w : Watch) (batch : List Change) : List Path :=
  ((batch.filter w.wants).map (·.path)).eraseDups

/-- What the one that takes the files of a batch makes of them: the state afterwards, the notes that were
made, and whether it failed. -/
structure Response (σ : Type) where
  state : σ
  notes : List Note
  failed : Bool

abbrev Handler (σ : Type) := List Path → σ → Response σ

/-- A state with the notes made so far. -/
structure Progress (σ : Type) where
  state : σ
  notes : List Note

/-- One batch: its files are handed on if there are any. -/
def deliver {σ : Type} (w : Watch) (handler : Handler σ) (p : Progress σ) (batch : List Change) :
    Progress σ :=
  match w.wanted batch with
  | [] => p
  | paths =>
    let r := handler paths p.state
    let detected : Note := ⟨.info, s!"Detected changes in {paths.length} file(s)"⟩
    let trouble : List Note := if r.failed then [⟨.error, "Error in watcher callback"⟩] else []
    ⟨r.state, p.notes ++ detected :: r.notes ++ trouble⟩

def startedNote (w : Watch) : Note :=
  ⟨.info, s!"Watcher started for {w.directory.render}"⟩

def stoppedNote (w : Watch) : Note :=
  ⟨.info, s!"Watcher stopped for {w.directory.render}"⟩

/-- What a session is told: to watch, to work through the batches that are there, or to watch no longer. -/
inductive Command where
  | start
  | run
  | stop
  deriving DecidableEq, Repr, Inhabited

/-- A watch at work: its number, by which it is told from others, and the batches that it has still to work
through. -/
structure Task where
  number : Nat
  waiting : List (List Change)
  deriving DecidableEq, Repr, Inhabited

/-- A session: the number of the task that was started and has not been stopped, if there is one, the tasks
that are at work, how many have been started, and what has come of the batches. -/
structure Session (σ : Type) where
  task : Option Nat
  tasks : List Task
  started : Nat
  progress : Progress σ

def Session.begin {σ : Type} (s : σ) : Session σ :=
  ⟨none, [], 0, ⟨s, []⟩⟩

def Session.noted {σ : Type} (s : Session σ) (n : Note) : Progress σ :=
  { s.progress with notes := s.progress.notes ++ [n] }

/-- What a command does to a session. To start a watch where one has been started, and to stop one where
none has, does nothing. Each task begins with all `batches`, and each that is at work works through them. -/
def Session.obey {σ : Type} (w : Watch) (handler : Handler σ) (batches : List (List Change))
    (s : Session σ) : Command → Session σ
  | .start =>
    match s.task with
    | some _ => s
    | none => ⟨some s.started, s.tasks ++ [⟨s.started, batches⟩], s.started + 1, s.noted w.startedNote⟩
  | .run =>
    { s with
      tasks := s.tasks.map fun t => { t with waiting := [] }
      progress := s.tasks.foldl (fun p t => t.waiting.foldl (deliver w handler) p) s.progress }
  | .stop =>
    match s.task with
    | some n => { s with
        task := none
        tasks := s.tasks.filter (·.number != n)
        progress := s.noted w.stoppedNote }
    | none => s

def Session.play {σ : Type} (w : Watch) (handler : Handler σ) (batches : List (List Change))
    (s : Session σ) (script : List Command) : Session σ :=
  script.foldl (Session.obey w handler batches) s

/-- A handler that keeps the files of each call, and fails on the calls with the given numbers. -/
def recorder (failing : List Nat) : Handler (List (List Path)) := fun paths calls =>
  ⟨calls ++ [paths], [], failing.contains calls.length⟩

end Watch

/-- The state of a check on change: what is known to be right, and the lines that were printed. -/
structure Recheck where
  known : Freshness
  printed : List String
  deriving Repr, Inhabited

namespace Recheck

/-- Is the file there and not known to be right? -/
def isDue (known : Freshness) (v : Vantage) (p : Path) : Except Failure Bool := do
  if ← v.isFile p then return !(← known.isFresh v p) else return false

def stale (known : Freshness) (v : Vantage) (paths : List Path) : Except Failure (List Path) :=
  (paths.filterM (isDue known v)).map Path.sort

/-- Records the file of a report if it could be looked at. -/
def record (v : Vantage) (known : Freshness) (r : Report) : Except Failure Freshness :=
  if r.error.isNone then known.mark v r.path else .ok known

def remember (v : Vantage) (known : Freshness) (reports : List Report) : Except Failure Freshness :=
  reports.foldlM (record v) known

/-- Checks those of the files that are not known to be right, prints what was found, and records those
that could be looked at. -/
def check (r : Reconciler) (v : Vantage) (s : Recheck) (paths : List Path) : Run Recheck :=
  match stale s.known v paths with
  | .error e => ⟨[], .error e⟩
  | .ok [] => ⟨[], .ok s⟩
  | .ok files =>
    let run := Batch.checkFiles r v files
    ⟨run.notes, run.outcome.bind fun reports =>
      (remember v s.known reports).map fun known => ⟨known, s.printed ++ Report.lines reports⟩⟩

end Recheck

end Namesake
