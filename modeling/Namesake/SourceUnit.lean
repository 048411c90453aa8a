import Namesake.Text.Utf8
import Namesake.Vantage

/-!
A source text together with where it lives and what language it is in.
-/

namespace Namesake

open Text

/-- A source text, where it lives if that is known, and the name of its language. -/
structure SourceUnit where
  text : String
  location : Option Location
  language : String
  deriving DecidableEq, Repr, Inhabited

namespace SourceUnit

def defaultLanguage : String := Language.php.name

def path? (u : SourceUnit) : Option String :=
  u.location.map (·.path)

def ofText (text : String) (location : Option Location) : SourceUnit :=
  ⟨text, location, defaultLanguage⟩

def readText (v : Vantage) (path : String) : Except Failure String :=
  match v.read (Path.ofString path) with
  | .error (.access ⟨.missing, _, _⟩) => .error (.noFile path)
  | .error e => .error e
  | .ok data =>
    match Utf8.decode? data with
    | .ok s => .ok s
    | .error e => .error (.undecodable e)

/-- The source in a file. Its language is the one that is named, else that of the file. -/
def ofFile (v : Vantage) (path : String) (language : Option String) : Except Failure SourceUnit := do
  let text ← readText v path
  let p := Path.ofString path
  let place ← v.resolve p
  match Language.resolve language (some p) with
  | .error r => .error (.language r)
  | .ok l => return ⟨text, some (Location.ofFile place.render), l.name⟩

end SourceUnit

end Namesake
