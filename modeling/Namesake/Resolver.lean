import Namesake.ClassName
import Namesake.Json.Reader
import Namesake.Manifest
import Namesake.Note
import Namesake.Vantage

/-!
From paths to class names. A resolver is either a table of paths or a list of rules, of which each says
that the types of a namespace live below a directory. A rule derives the name of a file from the way
from its directory to the file; rules with deeper directories come first, then those declared earlier.
-/

namespace Namesake

open Text

/-- The types of a namespace, which is written without backslashes around it, live below a directory. -/
structure Rule where
  space : String
  directory : Place
  deriving DecidableEq, Repr, Inhabited

/-- A way from paths to class names: a table of normalized paths, or the rules of a project with the given
root, in the order of their declaration. -/
inductive Resolver where
  | table (rows : Json.Fields ClassName)
  | autoload (root : Path) (rules : List Rule)
  deriving DecidableEq, Repr, Inhabited

namespace Resolver

def tableKey (path : String) : String :=
  (Path.ofString path).normalize.render

def addRow (found : Json.Fields ClassName) (row : String × String) :
    Except Failure (Json.Fields ClassName) :=
  match ClassName.parse row.2 with
  | .ok c => .ok (Json.Fields.set (tableKey row.1) c found)
  | .error ps => .error (.invalid ps)

def ofTable (rows : Json.Fields String) : Except Failure Resolver :=
  (rows.foldlM addRow []).map Resolver.table

/-- A namespace without backslashes around it. -/
def bareSpace (s : String) : String :=
  let isSep (c : Char) : Bool := c == ClassName.separator
  String.ofList (dropWhileEnd isSep (s.toList.dropWhile isSep))

/-- The rule for one directory, which is seen from the root. -/
def rule (v : Vantage) (root : Path) (space : String) : Json.Value → Except Failure Rule
  | .text dir => (v.resolve (root.join (Path.ofString dir))).map fun p => ⟨bareSpace space, p.names⟩
  | other => .error (.shape (.noDirectory other.word))

def rulesFor (v : Vantage) (root : Path) (row : String × Json.Value) : Except Failure (List Rule) :=
  match Manifest.directories row.2 with
  | .error f => .error (.shape f)
  | .ok dirs => dirs.mapM (rule v root row.1)

/-- A resolver from namespaces and their directories, for a project with the given root. -/
def ofRules (v : Vantage) (root : Path) (rows : Json.Fields Json.Value) : Except Failure Resolver := do
  let root ← v.resolve root
  let found ← rows.mapM (rulesFor v root)
  return .autoload root found.flatten

def manifestName : String := "composer.json"

/-- The resolver that the manifest of a project asks for; without a manifest that can be read it has no
rules, and a note says so. -/
def ofManifest (v : Vantage) (root : Path) : Run Resolver :=
  let file := root.join (Path.ofString manifestName)
  let bare (text : String) : Run Resolver := ⟨[⟨.warning, text⟩], ofRules v root []⟩
  let unreadable := bare s!"Could not parse {file.render}"
  match v.read file with
  -- only a manifest that is not there counts as none; any other refusal is the failure of the run
  | .error (.access ⟨.missing, _, _⟩) => bare s!"No composer.json found in {root.render}"
  | .error e => .quiet (.error e)
  | .ok data =>
    match (Utf8.decode? data).toOption.bind fun s => (Json.parse s).toOption with
    | none => unreadable
    | some manifest =>
      match Manifest.rules manifest with
      | .error f => .quiet (.error (.shape f))
      | .ok rules => .quiet (ofRules v root (rules.map fun r => (r.1, .list r.2)))

/-- The name of a file that is reached from the directory of a rule along `names`: the namespace and the
names, the last one without its suffix. -/
def derive (space : String) (names : List String) : Option ClassName :=
  match names.getLast? with
  | none => none
  | some last =>
    let stem := String.ofList (Path.cutSuffix last.toList).1
    let parts := (if space = "" then [] else [space]) ++ names.dropLast ++ [stem]
    (ClassName.parse ("\\".intercalate parts)).toOption

def Rule.apply (r : Rule) (p : Place) : Option ClassName :=
  (Path.dropFront? r.directory p).bind (derive r.space)

/-- The rules by the depth of their directories, deeper ones first; rules of one depth keep their
order. -/
def ranked (rules : List Rule) : List Rule :=
  rules.mergeSort fun a b => b.directory.length ≤ a.directory.length

/-- The names that rules derive for a place, the best one first. -/
def derived (rules : List Rule) (p : Place) : List ClassName :=
  ((ranked rules).filterMap fun r => Rule.apply r p).eraseDups

def candidates (v : Vantage) (r : Resolver) (path : String) : Except Failure (List ClassName) :=
  match r with
  | .table rows => .ok (Json.Fields.get? (tableKey path) rows).toList
  | .autoload root rules => (v.resolve (root.join (Path.ofString path))).map fun p => derived rules p.names

def absent (r : Resolver) (path : String) : NoCandidate :=
  match r with
  | .table _ => .notRegistered path
  | .autoload _ _ => .notDerived path

/-- The best class name of a path, or why there is none. -/
def best (v : Vantage) (r : Resolver) (path : String) :
    Except Failure (Except NoCandidate ClassName) :=
  (r.candidates v path).map fun
    | [] => .error (r.absent path)
    | c :: _ => .ok c

end Resolver

end Namesake
