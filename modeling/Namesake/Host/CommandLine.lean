import Namesake.Host.Act
import Namesake.Host.Options
import Namesake.Incremental
import Namesake.Watch

/-!
The command line: `check` reports what files have to change, `fix` changes them, and `watch` checks files
as they change. A command line that names no such command, or an option or word that the command does
not have, is refused.
-/

namespace Namesake.Host

open Syntax

/-- What happens while a watch is on: something outside changes the disk, and then changes are reported. -/
structure Event where
  before : Disk → Disk
  changes : List Change

/-- How a command line ends: with a status for the caller, zero if all is right, or with a failure. -/
inductive Ending where
  | status (code : Nat)
  | failed (e : Failure)
  deriving DecidableEq, Repr, Inhabited

namespace CommandLine

/-- The status of a command that was done, with nothing wrong. -/
def success : Nat := 0

/-- The status of a command that was done and found something wrong. -/
def trouble : Nat := 1

/-- The status of a command line that is refused. -/
def misuse : Nat := 2

def mainKeys : List Key := [.verbose, .help]

def checkKeys : List Key := [.root, .included, .excluded, .incremental, .complete, .help]

def fixKeys : List Key := [.root, .included, .excluded, .dryRun, .help]

def watchKeys : List Key := [.root, .excluded, .help]

/-- A path on the command line; the empty one is the current directory. -/
def pathWord (s : String) : Except Failure Path :=
  if Path.holdsNul s then .error .nulInPath else .ok (Path.ofString s)

def settings (ws : List Word) : Act Settings := do
  let root ← Act.demand ((valuesOf .root ws).getLast?.mapM pathWord)
  let s ← get
  Act.demand
    (Settings.make (← Act.vantage) s.environment (root.map Path.render) (valuesOf .included ws)
      (valuesOf .excluded ws))

def reconciler (parse : String → Tree) (s : Settings) : Act Reconciler := do
  let r ← Act.perform (Resolver.ofManifest (← Act.vantage) s.root)
  return Reconciler.ofResolver r parse

def check (parse : String → Tree) (ws : List Word) (sub : Option Path) : Act Nat := do
  let s ← settings ws
  let r ← reconciler parse s
  let v ← Act.vantage
  let known ←
    if prevails .incremental .complete ws then some <$> Act.perform (Freshness.load v s.cachePath)
    else pure none
  let files ← Act.perform ((FileList.ofSettings s).files v known sub)
  let reports ← Act.perform (Batch.checkFiles r v files)
  Act.say (Report.lines reports)
  match known with
  | none => pure ()
  | some k =>
    let k ← Act.demand (Incremental.settleAll v k reports)
    Act.setDisk (← Act.demand (k.save v s.cachePath))
  return if Report.total reports = 0 then success else trouble

def fix (parse : String → Tree) (ws : List Word) (sub : Option Path) : Act Nat := do
  let s ← settings ws
  let r ← reconciler parse s
  let v ← Act.vantage
  let files ← Act.perform ((FileList.ofSettings s).files v none sub)
  let dry := holds .dryRun ws
  let (run, disk) := Batch.fixFiles r dry v files
  Act.setDisk disk
  let reports ← Act.perform run
  Act.say (Report.fixLines dry reports)
  return if reports.any Report.isFailed then trouble else success

/-- Checks the files of a batch. -/
def recheck (r : Reconciler) (v : Vantage) : Watch.Handler Recheck := fun paths s =>
  let run := Recheck.check r v s paths
  match run.outcome with
  | .ok s => ⟨s, run.notes, false⟩
  | .error _ => ⟨s, run.notes, true⟩

/-- Lives through an event of a watch. -/
def live (w : Watch) (r : Reconciler) (cwd : Place) (state : Disk × Watch.Progress Recheck)
    (e : Event) : Disk × Watch.Progress Recheck :=
  let disk := e.before state.1
  (disk, Watch.deliver w (recheck r ⟨disk, cwd⟩) state.2 e.changes)

/-- Checks files as they change, until it is interrupted after the last event. -/
def watch (parse : String → Tree) (ws : List Word) (events : List Event) : Act Nat := do
  let s ← settings ws
  let r ← reconciler parse s
  let w := Watch.ofSettings s
  Act.say [s!"Watching {s.root.render} (Ctrl+C to stop)"]
  let scene ← get
  let start : Watch.Progress Recheck := ⟨⟨Freshness.empty, []⟩, [w.startedNote]⟩
  let (disk, p) := events.foldl (live w r scene.cwd) (scene.disk, start)
  Act.setDisk disk
  Act.note (p.notes ++ [w.stoppedNote])
  Act.say (p.state.printed ++ ["Stopped."])
  return success

/-- Reads the words of a command that takes one path at most. -/
def withPath (keys : List Key) (args : List String)
    (command : List Word → Option Path → Act Nat) : Act Nat :=
  match readWords keys true args with
  | none => return misuse
  | some ws => do
    if holds .help ws then return success
    -- a word that can be no path is refused before a second path is
    let paths ← Act.demand ((plainWords ws).take 1 |>.mapM pathWord)
    let _ ← Act.demand ((valuesOf .root ws).mapM pathWord)
    if (plainWords ws).length ≤ 1 then command ws paths.head? else return misuse

def command (parse : String → Tree) (args : List String) (events : List Event) : Act Nat :=
  match readWords mainKeys false args with
  | none => return misuse
  | some ws =>
    if holds .help ws then return success
    else
      match plainWords ws with
      | "check" :: rest => withPath checkKeys rest (check parse)
      | "fix" :: rest => withPath fixKeys rest (fix parse)
      | "watch" :: rest =>
        match readWords watchKeys true rest with
        | none => return misuse
        | some ws =>
          if holds .help ws then return success
          else if (plainWords ws).isEmpty then watch parse ws events
          else return misuse
      | _ => return misuse

/-- Is a note shown to the one who runs a command line? Those that only help in a search for errors are
shown when they are asked for. -/
def shows (args : List String) (n : Note) : Bool :=
  match n.level with
  | .warning | .error => true
  | .debug | .info => ((readWords mainKeys false args).map (holds .verbose)).getD false

/-- A command line in a scene: how it ends, and the scene afterwards. -/
def run (parse : String → Tree) (args : List String) (events : List Event) (s : Scene) :
    Ending × Scene :=
  match (command parse args events).run.run s with
  | (.ok code, s) => (.status code, s)
  | (.error e, s) => (.failed e, s)

end CommandLine

end Namesake.Host
