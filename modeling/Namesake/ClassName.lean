import Namesake.Field
import Namesake.Text.Blank

/-!
Fully qualified type names. A name is read from a text by trimming blanks, then the backslashes in
front, and cutting at the last backslash; what stands after the cut is the short name and may not be
empty.
-/

namespace Namesake

open Text

/-- A type name: the namespace, its segments joined by backslashes and empty for the global one, and the
short name. -/
structure ClassName where
  space : String
  name : String
  deriving DecidableEq, Repr, Inhabited

namespace ClassName

def separator : Char := '\\'

/-- Cuts at the last separator: the part before it and the part after it. Without a separator the
first part is empty. -/
def cutLast (cs : List Char) : List Char × List Char :=
  let name := cs.reverse.takeWhile (· != separator)
  ((cs.reverse.drop (name.length + 1)).reverse, name.reverse)

/-- The name with these parts; the short name may not be empty. -/
def check (space name : String) : Field.Checked ClassName :=
  if name.isEmpty then Field.within (.key "name") (Field.fail .emptyText) else .ok ⟨space, name⟩

def parse (s : String) : Field.Checked ClassName :=
  let (space, name) := cutLast ((trimChars s.toList).dropWhile (· == separator))
  check (String.ofList space) (String.ofList name)

def render (c : ClassName) : String :=
  if c.space.isEmpty then c.name else c.space ++ "\\" ++ c.name

end ClassName

end Namesake
