import Namesake.Text.Split

/-!
Paths as texts with slashes, without a look at any disk. A path is absolute when it begins with a slash;
exactly two slashes at the front are kept apart from one. Empty parts and single dots carry no meaning
and are dropped when a path is read, double dots are kept, because the directory they lead to depends on
the disk. `normalize` cancels them against the part before, which is right where no part is a link.
-/

namespace Namesake

open Text

/-- The names on the way from the root to a place. -/
abbrev Place := List String

/-- What a path begins with. -/
inductive Anchor where
  /-- Nothing: the path is relative. -/
  | here
  /-- One slash, or three and more. -/
  | root
  /-- Exactly two slashes. -/
  | doubleRoot
  deriving DecidableEq, Repr, Inhabited

def Anchor.text : Anchor → String
  | .here => ""
  | .root => "/"
  | .doubleRoot => "//"

/-- A path: what it begins with and the names that follow. -/
structure Path where
  anchor : Anchor
  names : List String
  deriving DecidableEq, Repr, Inhabited

namespace Path

def anchorOf : List Char → Anchor
  | '/' :: '/' :: '/' :: _ => .root
  | '/' :: '/' :: _ => .doubleRoot
  | '/' :: _ => .root
  | _ => .here

/-- The parts of a text that carry a meaning. -/
def namesOf (cs : List Char) : List String :=
  ((splitOn '/' cs).filter fun p => p ≠ [] ∧ p ≠ ['.']).map String.ofList

def ofString (s : String) : Path :=
  ⟨anchorOf s.toList, namesOf s.toList⟩

/-- The path as text; the empty path is a dot. -/
def render (p : Path) : String :=
  if p.anchor = .here ∧ p.names = [] then "."
  else p.anchor.text ++ "/".intercalate p.names

def ofPlace (p : Place) : Path :=
  ⟨.root, p⟩

def isAbsolute (p : Path) : Bool :=
  p.anchor != .here

/-- The second path as seen from the first: an absolute one stands for itself. -/
def join (p q : Path) : Path :=
  if q.isAbsolute then q else ⟨p.anchor, p.names ++ q.names⟩

/-- The parts by which paths are compared: the anchor, if there is one, then the names. -/
def parts (p : Path) : List String :=
  if p.isAbsolute then p.anchor.text :: p.names else p.names

/-- Order part by part, each part by code points. -/
def le (p q : Path) : Bool :=
  !decide (q.parts < p.parts)

def sort (ps : List Path) : List Path :=
  ps.mergeSort le

/-- The last name, empty if there is none. -/
def name (p : Path) : String :=
  p.names.getLast?.getD ""

/-- Where a name is cut: the stem and the suffix, which begins with the last dot. A dot at either end of
the name begins no suffix. -/
def cutSuffix (name : List Char) : List Char × List Char :=
  let after := name.reverse.takeWhile (· != '.')
  let stem := name.take (name.length - after.length - 1)
  if after = [] ∨ stem = [] ∨ after.length = name.length then (name, [])
  else (stem, '.' :: after.reverse)

def suffix (p : Path) : String :=
  String.ofList (cutSuffix p.name.toList).2

def stem (p : Path) : String :=
  String.ofList (cutSuffix p.name.toList).1

/-- What is left of `whole` after `front`. -/
def dropFront? : List String → List String → Option (List String)
  | [], whole => some whole
  | a :: front, b :: whole => if a = b then dropFront? front whole else none
  | _ :: _, [] => none

/-- The path as seen from a directory on the way to it. -/
def relativeTo? (p dir : Path) : Option Path :=
  if p.anchor = dir.anchor then (dropFront? dir.names p.names).map fun ns => ⟨.here, ns⟩
  else none

/-- One more name after those in `seen`, the last one first: a double dot cancels the name before it.
At the root it does nothing; in a relative path it stays where there is nothing to cancel. -/
def cancel (absolute : Bool) (seen : List String) (name : String) : List String :=
  if name = ".." then
    match seen with
    | [] => if absolute then [] else [name]
    | last :: rest => if last = ".." then name :: seen else rest
  else name :: seen

/-- The path without double dots, as far as they cancel. -/
def normalize (p : Path) : Path :=
  ⟨p.anchor, (p.names.foldl (cancel p.isAbsolute) []).reverse⟩

/-- Does the text hold the character that ends texts in system calls? -/
def holdsNul (s : String) : Bool :=
  s.toList.contains '\x00'

end Path

end Namesake
