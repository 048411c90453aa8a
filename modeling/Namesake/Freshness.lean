import Namesake.Digest
import Namesake.Json.Reader
import Namesake.Json.Writer
import Namesake.Note
import Namesake.Vantage

/-!
A record of the content that files had when they were last found right. A file is known by its true path
and its content by its digest. The record is kept in a file as a table of texts; what else is found in
such a file is read as far as it makes sense, and put aside with a note where it makes none.
-/

namespace Namesake

open Json Text

/-- For the true path of a file the digest of its content. -/
structure Freshness where
  digests : Fields String
  deriving DecidableEq, Repr, Inhabited

namespace Freshness

def empty : Freshness := ⟨[]⟩

def size (f : Freshness) : Nat :=
  f.digests.length

/-- How a file is known. -/
def key (v : Vantage) (p : Path) : Except Failure String :=
  (v.resolve p).map Path.render

def digestOf (v : Vantage) (p : Path) : Except Failure String :=
  (v.read p).map Digest.sha256

/-- Has the file the content that is recorded for it? -/
def isFresh (f : Freshness) (v : Vantage) (p : Path) : Except Failure Bool := do
  let k ← key v p
  match Fields.get? k f.digests with
  | none => return false
  | some recorded =>
    match digestOf v p with
    | .ok d => return d == recorded
    | .error (.access _) => return false
    | .error e => .error e

def mark (f : Freshness) (v : Vantage) (p : Path) : Except Failure Freshness := do
  let d ← digestOf v p
  let k ← key v p
  return ⟨Fields.set k d f.digests⟩

def forget (f : Freshness) (v : Vantage) (p : Path) : Except Failure Freshness :=
  (key v p).map fun k => ⟨Fields.erase k f.digests⟩

mutual

/-- A value as text in a text: texts are put in quotation marks. -/
def plainItem : Value → String
  | .null => "None"
  | .bool b => if b then "True" else "False"
  | .int n => toString n
  | .real x => x.render
  | .text s => quoted s
  | .list [] => "[]"
  | .list (v :: vs) => "[" ++ plainItem v ++ plainItems vs
  | .object [] => "\x7b\x7d"
  | .object ((name, v) :: fs) => "\x7b" ++ quoted name ++ ": " ++ plainItem v ++ plainFields fs

/-- The elements after the first one, and the closing bracket. -/
def plainItems : List Value → String
  | [] => "]"
  | v :: vs => ", " ++ plainItem v ++ plainItems vs

/-- The fields after the first one, and the closing brace. -/
def plainFields : List (String × Value) → String
  | [] => "\x7d"
  | (name, v) :: fs => ", " ++ quoted name ++ ": " ++ plainItem v ++ plainFields fs

end

def plain : Value → String
  | .text s => s
  | v => plainItem v

/-- The record in a file; a file that holds none gives an empty record and a note. -/
def load (v : Vantage) (file : Path) : Run Freshness :=
  let unreadable : Run Freshness :=
    ⟨[⟨.warning, s!"Ignoring unreadable freshness cache {file.render}"⟩], .ok empty⟩
  match v.read file with
  | .error (.access ⟨.missing, _, _⟩) => .quiet (.ok empty)
  | .error e => .quiet (.error e)
  | .ok data =>
    match (Utf8.decode? data).toOption.bind fun s => (Json.parse s).toOption with
    | none => unreadable
    | some (.object fields) => .quiet (.ok ⟨fields.map fun f => (f.1, plain f.2)⟩)
    | some _ => ⟨[⟨.warning, s!"Ignoring malformed freshness cache {file.render}"⟩], .ok empty⟩

def content (f : Freshness) : Octets :=
  Utf8.encode (renderTable f.digests)

def save (f : Freshness) (v : Vantage) (file : Path) : Except Failure Disk :=
  v.write file f.content

end Freshness

end Namesake
