import Namesake.Disk.Basic
import Namesake.Edit
import Namesake.Field
import Namesake.Language
import Namesake.Location

/-!
Why an operation fails. A failure is a cause with the values it is about; `message` words it.
-/

namespace Namesake

/-- Why a path has no class name: no rule derives one, or the table has no such path. -/
inductive NoCandidate where
  | notDerived (path : String)
  | notRegistered (path : String)
  deriving DecidableEq, Repr, Inhabited

def NoCandidate.message : NoCandidate → String
  | .notDerived path => s!"Could not derive a class name for {path}"
  | .notRegistered path => s!"No class name registered for {path}"

/-- Why nothing can be said about a source. -/
inductive Unresolved where
  | noLocation
  | notFile (scheme : String)
  | noName (path : String) (cause : NoCandidate)
  deriving DecidableEq, Repr, Inhabited

def Unresolved.message : Unresolved → String
  | .noLocation => "Source has no location associated with it"
  | .notFile scheme => s!"Source is not a file:// it is \"{scheme}\""
  | .noName path cause => s!"Could not determine class name for {path}: {cause.message}"

/-- What is wrong with the shape of a manifest, with the word for the value that was found. -/
inductive ShapeFault where
  | noSections (word : String)
  | noRules (word : String)
  | noDirectories (word : String)
  | noDirectory (word : String)
  deriving DecidableEq, Repr, Inhabited

def ShapeFault.message : ShapeFault → String
  | .noSections word => s!"'{word}' object has no attribute 'get'"
  | .noRules word => s!"'{word}' object has no attribute 'items'"
  | .noDirectories word => s!"'{word}' object is not iterable"
  | .noDirectory word => s!"unsupported operand type(s) for /: 'PosixPath' and '{word}'"

/-- Why an operation fails. -/
inductive Failure where
  | access (e : AccessError)
  | noFile (path : String)
  | undecodable (e : Text.Utf8.DecodeError)
  /-- A path holds the character that ends texts in system calls. -/
  | nulInPath
  /-- Links run in a circle at a path. -/
  | linkLoop (path : String)
  | language (r : Language.Refusal)
  | location (r : Location.Authority.Refusal)
  | edits (r : Edit.Refusal)
  /-- A record breaks a rule. -/
  | invalid (problems : List Field.Problem)
  | noCandidate (c : NoCandidate)
  | unresolved (u : Unresolved)
  | shape (f : ShapeFault)
  deriving DecidableEq, Repr, Inhabited

namespace Failure

def message : Failure → String
  | .access e => e.message
  | .noFile path => s!"File not found: {path}"
  | .undecodable e => e.message
  | .nulInPath => "embedded null byte"
  | .linkLoop path => s!"Symlink loop from {Text.quoted path}"
  | .language r => r.message
  | .location r => r.message
  | .edits r => r.message
  | .invalid problems => "\n".intercalate (problems.map fun p => p.fault.message)
  | .noCandidate c => c.message
  | .unresolved u => u.message
  | .shape f => f.message

/-- Is it about one source only, so that work on others can go on? Circles of links and wrong manifests
are not. -/
def isLocal : Failure → Bool
  | .linkLoop _ => false
  | .shape _ => false
  | .noCandidate _ => false
  | .unresolved _ => false
  | _ => true

def ofTrouble (path : Path) (t : Trouble) : Failure :=
  .access ⟨t, path.render, none⟩

end Failure

end Namesake
