import Namesake.Schema.Record
import Namesake.Text.Lowercase

/-!
What a run works on: the root of the project, the patterns that choose its files, and where the record of
checked files is kept. An explicit value goes before one from the environment, and that before the
standard one.
-/

namespace Namesake

open Json Text

/-- Variables of the environment. -/
abbrev Environment := Fields String

/-- What a run works on: the root of the project, the patterns of which a file has to match one, if there
are any, those of which it may match none, whether links to directories are entered, and where the record of
checked files is kept, as seen from the root. -/
structure Settings where
  root : Path
  included : List String
  excluded : List String
  followLinks : Bool
  cacheFile : String
  deriving DecidableEq, Repr, Inhabited

namespace Settings

def rootVariable : String := "FQN_RECONCILE_ROOT"

def includedVariable : String := "FQN_RECONCILE_INCLUDE"

def excludedVariable : String := "FQN_RECONCILE_EXCLUDE"

/-- The variable that lets links to directories be entered. -/
def linksVariable : String := "FQN_RECONCILE_FOLLOW_SYMLINKS"

def cacheVariable : String := "FQN_RECONCILE_CACHE"

def variableNames : List String :=
  [rootVariable, includedVariable, excludedVariable, linksVariable, cacheVariable]

def defaultExcluded : List String := ["vendor/*"]

def defaultCacheFile : String := ".fqn-reconcile-cache.json"

def cachePath (s : Settings) : Path :=
  s.root.join (Path.ofString s.cacheFile)

/-- The patterns in a text, with commas between them; blank ones are passed over. -/
def splitPatterns (s : String) : List String :=
  ((splitOn ',' s.toList).map trimChars).filterMap fun cs =>
    if cs = [] then none else some (String.ofList cs)

def isYes (s : String) : Bool :=
  ["1", "true", "yes", "on"].contains (toLower (trim s))

/-- The root as it is given, by preference explicitly. -/
def rootText (env : Environment) (root : Option String) : String :=
  match root.filter (· ≠ "") with
  | some s => s
  | none => (Fields.get? rootVariable env).getD "."

/-- Patterns given explicitly, else those of a variable, else the standard ones. -/
def patterns (env : Environment) (variableName : String) (standard explicit : List String) :
    List String :=
  if explicit ≠ [] then explicit
  else
    match Fields.get? variableName env with
    | some s => splitPatterns s
    | none => standard

def make (v : Vantage) (env : Environment) (root : Option String) (included excluded : List String) :
    Except Failure Settings :=
  (v.resolve (Path.ofString (rootText env root))).map fun p =>
    { root := p
      included := patterns env includedVariable [] included
      excluded := patterns env excludedVariable defaultExcluded excluded
      followLinks := isYes ((Fields.get? linksVariable env).getD "")
      cacheFile := (Fields.get? cacheVariable env).getD defaultCacheFile }

/-- Patterns from a loose value: a value that says nothing gives none. -/
def loosePatterns (v : Value) : Field.Checked (List String) :=
  if !v.isPresent then .ok []
  else
    match v with
    | .list items => Schema.elements Schema.text 0 items
    | _ => Field.fail .notList

/-- The settings of a run whose patterns are given loosely. -/
def makeLoose (v : Vantage) (env : Environment) (root : Option String) (included excluded : Value) :
    Except Failure Settings := do
  let _ ← v.resolve (Path.ofString (rootText env root))
  match Field.both (Field.within (.key "include_patterns") (loosePatterns included))
      (Field.within (.key "exclude_patterns") (loosePatterns excluded)) with
  | .error ps => .error (.invalid ps)
  | .ok (incl, excl) => make v env root incl excl

end Settings

end Namesake
