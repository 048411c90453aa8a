import Namesake.Path
import Namesake.Text.Quoted
import Namesake.Text.Utf8

/-!
A disk as a table of places: files with their octets, directories, and links that hold a path. The root
is always a directory. `follow` is the way the system looks a path up: it walks name by name, goes
through links, gives up after forty of them, and says why it fails. Everything that opens, lists,
creates or removes goes through it.
-/

namespace Namesake

open Text

/-- What is at a place. The target of a link is a path that may lead anywhere or nowhere. -/
inductive Node where
  | file (content : Octets)
  | directory
  | link (target : String)
  deriving DecidableEq, Repr, Inhabited

/-- Why the system refuses. -/
inductive Trouble where
  | missing
  | occupied
  | notDirectory
  | isDirectory
  | tooLong
  | tooManyLinks
  deriving DecidableEq, Repr, Inhabited

def Trouble.number : Trouble → Nat
  | .missing => 2
  | .occupied => 17
  | .notDirectory => 20
  | .isDirectory => 21
  | .tooLong => 36
  | .tooManyLinks => 40

def Trouble.words : Trouble → String
  | .missing => "No such file or directory"
  | .occupied => "File exists"
  | .notDirectory => "Not a directory"
  | .isDirectory => "Is a directory"
  | .tooLong => "File name too long"
  | .tooManyLinks => "Too many levels of symbolic links"

/-- A trouble with a path as it was given; for a new link `second` is the path of the link itself. -/
structure AccessError where
  trouble : Trouble
  path : String
  second : Option String
  deriving DecidableEq, Repr, Inhabited

def AccessError.message (e : AccessError) : String :=
  let tail :=
    match e.second with
    | some s => s!" -> {quoted s}"
    | none => ""
  s!"[Errno {e.trouble.number}] {e.trouble.words}: {quoted e.path}{tail}"

/-- What is at each place that is in use, in the order in which the places were first used. -/
structure Disk where
  nodes : List (Place × Node)
  deriving DecidableEq, Repr, Inhabited

namespace Disk

/-- A disk with a root only. -/
def empty : Disk := ⟨[]⟩

def find? (d : Disk) (p : Place) : Option Node :=
  if p = [] then some .directory else (d.nodes.find? fun e => e.1 = p).map (·.2)

/-- Puts a node at a place, in the stead of what was there. -/
def put (d : Disk) (p : Place) (n : Node) : Disk :=
  if d.nodes.any fun e => e.1 = p then
    ⟨d.nodes.map fun e => if e.1 = p then (p, n) else e⟩
  else ⟨d.nodes ++ [(p, n)]⟩

/-- Takes away what is at a place and below it. -/
def drop (d : Disk) (p : Place) : Disk :=
  ⟨d.nodes.filter fun e => (Path.dropFront? p e.1).isNone⟩

/-- The names in a directory, in order. -/
def children (d : Disk) (p : Place) : List String :=
  let names := d.nodes.filterMap fun e =>
    match Path.dropFront? p e.1 with
    | some [n] => some n
    | _ => none
  names.mergeSort fun a b => !decide (b < a)

/-- Where a look-up ends: at a place in use, or at a free place in a directory. -/
inductive Found where
  | present (p : Place) (n : Node)
  | absent (p : Place)
  deriving DecidableEq, Repr, Inhabited

/-- The greatest number of octets of a name. -/
def nameLimit : Nat := 255

/-- The number of octets that a path may not reach. -/
def pathLimit : Nat := 4096

/-- How many links a look-up goes through. -/
def linkLimit : Nat := 40

/-- Walks from a place along names, through at most `links` links. With `last` a link at the end is
followed too. -/
def follow (d : Disk) (last : Bool) (links : Nat) (p : Place) (names : List String) :
    Except Trouble Found :=
  match names with
  | [] =>
    match d.find? p with
    | some n => .ok (.present p n)
    | none => .error .missing
  | name :: rest =>
    match d.find? p with
    | none => .error .missing
    | some (.file _) => .error .notDirectory
    | some (.link _) => .error .notDirectory
    | some .directory =>
      if name = ".." then follow d last links p.dropLast rest
      else if nameLimit < Utf8.size name then .error .tooLong
      else
        let child := p ++ [name]
        match d.find? child with
        | none => if rest = [] then .ok (.absent child) else .error .missing
        | some (.link target) =>
          if rest = [] ∧ !last then .ok (.present child (.link target))
          else
            match links with
            | 0 => .error .tooManyLinks
            | links + 1 =>
              -- a relative target starts in the directory that holds the link
              let t := Path.ofString target
              follow d last links (if t.isAbsolute then [] else p) (t.names ++ rest)
        | some _ => follow d last links child rest
termination_by (links, names.length)

def look (d : Disk) (cwd : Place) (last : Bool) (p : Path) : Except Trouble Found :=
  if pathLimit ≤ Utf8.size p.render then .error .tooLong
  else follow d last linkLimit (if p.isAbsolute then [] else cwd) p.names

def stat (d : Disk) (cwd : Place) (p : Path) : Except Trouble Node :=
  match d.look cwd true p with
  | .ok (.present _ n) => .ok n
  | .ok (.absent _) => .error .missing
  | .error t => .error t

def isDirectory (d : Disk) (cwd : Place) (p : Path) : Bool :=
  match d.stat cwd p with
  | .ok .directory => true
  | _ => false

def read (d : Disk) (cwd : Place) (p : Path) : Except Trouble Octets :=
  match d.stat cwd p with
  | .ok (.file content) => .ok content
  | .ok _ => .error .isDirectory
  | .error t => .error t

/-- Writes a file, which is made if its directory is there. -/
def write (d : Disk) (cwd : Place) (p : Path) (content : Octets) : Except Trouble Disk :=
  match d.look cwd true p with
  | .ok (.present q (.file _)) => .ok (d.put q (.file content))
  | .ok (.present _ _) => .error .isDirectory
  | .ok (.absent q) => .ok (d.put q (.file content))
  | .error t => .error t

def link (d : Disk) (cwd : Place) (p : Path) (target : String) : Except Trouble Disk :=
  match d.look cwd false p with
  | .ok (.present _ _) => .error .occupied
  | .ok (.absent q) => .ok (d.put q (.link target))
  | .error t => .error t

/-- Removes a file, a link, or a directory with all that is in it. -/
def remove (d : Disk) (cwd : Place) (p : Path) : Except Trouble Disk :=
  match d.look cwd false p with
  | .ok (.present q _) => .ok (d.drop q)
  | .ok (.absent _) => .error .missing
  | .error t => .error t

/-- Makes the directories along `names` from the path `done` on, as far as they are missing. On failure
the path that could not be made is named. -/
def makeAll (d : Disk) (cwd : Place) (done : Path) : List String → Except (Trouble × Path) Disk
  | [] => .ok d
  | name :: rest =>
    let next : Path := ⟨done.anchor, done.names ++ [name]⟩
    match d.look cwd true next with
    | .ok (.present _ .directory) => makeAll d cwd next rest
    | .ok (.present _ _) => .error (if rest = [] then .occupied else .notDirectory, next)
    | .ok (.absent q) => makeAll (d.put q .directory) cwd next rest
    | .error t => .error (t, next)

def makeDirectory (d : Disk) (cwd : Place) (p : Path) : Except (Trouble × Path) Disk :=
  makeAll d cwd ⟨p.anchor, []⟩ p.names

end Disk

end Namesake
