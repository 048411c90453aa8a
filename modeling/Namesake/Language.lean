import Namesake.Path
import Namesake.Text.Blank
import Namesake.Text.Lowercase
import Namesake.Text.Quoted

/-!
Source languages, by name and by the suffix of a file. Names and suffixes are read without regard to
case; there is one language, under several names.
-/

namespace Namesake

open Text

/-- A source language. -/
inductive Language where
  | php
  deriving DecidableEq, Repr, Inhabited

namespace Language

def name : Language → String
  | .php => "php"

def all : List Language := [.php]

/-- Why no language is found: the name or the suffix belongs to none, or there is neither a name nor a path.
-/
inductive Refusal where
  | unknownName (name : String)
  | unknownSuffix (suffix : String)
  | undetermined
  deriving DecidableEq, Repr, Inhabited

def Refusal.message : Refusal → String
  | .unknownName n =>
    let known := ", ".intercalate (all.map fun l => quoted l.name)
    s!"Unsupported language '{n}'. Supported: [{known}]"
  | .unknownSuffix s => s!"Unsupported file extension: {s}"
  | .undetermined => "Language must be provided when no file path is available."

def named? (s : String) : Option Language :=
  if ["php", "php5", "php7", "php8", "phtml"].contains s then some .php else none

def ofSuffix? (s : String) : Option Language :=
  if [".php", ".php5", ".php7", ".php8", ".phtml"].contains s then some .php else none

/-- The language a text names, blanks around it and case aside. -/
def ofName (s : String) : Except Refusal Language :=
  match named? (toLower (trim s)) with
  | some l => .ok l
  | none => .error (.unknownName s)

def ofPath (p : Path) : Except Refusal Language :=
  let suffix := toLower p.suffix
  match ofSuffix? suffix with
  | some l => .ok l
  | none => .error (.unknownSuffix suffix)

/-- The language of a source: the one that is named, else the one of its file. -/
def resolve (name : Option String) (path : Option Path) : Except Refusal Language :=
  match name.filter (· ≠ ""), path with
  | some n, _ => ofName n
  | none, some p => ofPath p
  | none, none => .error .undetermined

def isSource (p : Path) : Bool :=
  (ofSuffix? (toLower p.suffix)).isSome

end Language

end Namesake
