import Namesake.Location.Authority
import Namesake.Path
import Namesake.Text.Utf8

/-!
Where a source lives: a scheme and a path. A location is read from a URI or from a bare path; a text
whose scheme is absent or a single letter is a bare path. A file URI keeps only its path, in which
percent-escapes are undone; any other URI keeps all that follows the scheme.
-/

namespace Namesake

open Text

/-- A scheme and a path. -/
structure Location where
  scheme : String
  path : String
  deriving DecidableEq, Repr, Inhabited

namespace Location

def fileScheme : String := "file"

def ofFile (path : String) : Location :=
  ⟨fileScheme, path⟩

/-- The characters that are read as a URI: control characters and blanks in front are dropped, and tabs
and line ends everywhere. -/
def cleaned (cs : List Char) : List Char :=
  (cs.dropWhile (· ≤ ' ')).filter fun c => c ≠ '\t' ∧ c ≠ '\r' ∧ c ≠ '\n'

def isSchemeChar (c : Char) : Bool :=
  c.isAlphanum || c == '+' || c == '-' || c == '.'

/-- The scheme in lower case and what follows its colon. Without a scheme the first part is empty. -/
def cutScheme (cs : List Char) : List Char × List Char :=
  let front := cs.takeWhile (· != ':')
  match front, cs.drop front.length with
  | c :: _, _ :: rest =>
    if c.isAlpha && front.all isSchemeChar then (front.map Char.toLower, rest) else ([], cs)
  | _, _ => ([], cs)

def cutAuthority : List Char → List Char × List Char
  | '/' :: '/' :: rest =>
    let inside (c : Char) : Bool := c != '/' && c != '?' && c != '#'
    (rest.takeWhile inside, rest.dropWhile inside)
  | cs => ([], cs)

/-- Undoes percent-escapes. The octets of a run of ASCII characters and escapes are read together, and
ill-formed ones are replaced; `pending` holds those of the run so far, the last one first. -/
def unescapeFrom (pending : Octets) : List Char → List Char
  | [] => Utf8.decodeLossyFrom none pending.reverse
  | '%' :: a :: b :: rest =>
    match Hex.value? a, Hex.value? b with
    | some x, some y => unescapeFrom (UInt8.ofNat (x * 16 + y) :: pending) rest
    | _, _ => unescapeFrom (0x25 :: pending) (a :: b :: rest)
  | c :: rest =>
    if c.toNat < 0x80 then unescapeFrom (UInt8.ofNat c.toNat :: pending) rest
    else Utf8.decodeLossyFrom none pending.reverse ++ c :: unescapeFrom [] rest
termination_by cs => cs.length

def unescape (cs : List Char) : String :=
  String.ofList (unescapeFrom [] cs)

def parse (s : String) : Except Authority.Refusal Location :=
  let (scheme, rest) := cutScheme (cleaned s.toList)
  let (authority, rest) := cutAuthority rest
  match Authority.check authority with
  | .error e => .error e
  | .ok () =>
    if scheme.length ≤ 1 then .ok (ofFile s)
    else if String.ofList scheme = fileScheme then
      .ok (ofFile (unescape (rest.takeWhile fun c => c != '?' && c != '#')))
    else .ok ⟨String.ofList scheme, unescape (s.toList.drop (scheme.length + 1))⟩

/-- An octet that a file URI may hold as it is. -/
def isPlain (b : UInt8) : Bool :=
  let c := Char.ofNat b.toNat
  b < 0x80 && (c.isAlphanum || c == '-' || c == '.' || c == '_' || c == '~' || c == '/')

def escapeOctet (b : UInt8) : List Char :=
  if isPlain b then [Char.ofNat b.toNat]
  else ['%', Hex.upperDigit (b.toNat / 16), Hex.upperDigit (b.toNat % 16)]

def escape (s : String) : String :=
  String.ofList ((Utf8.encode s).flatMap escapeOctet)

/-- The location as a URI. The path of a file is written in its shortest spelling; a relative one is
written as it is. -/
def render (l : Location) : String :=
  if l.scheme = fileScheme then
    let p := Path.ofString l.path
    if p.isAbsolute then "file://" ++ escape p.render else "file://" ++ l.path
  else l.scheme ++ ":" ++ l.path

end Location

end Namesake
