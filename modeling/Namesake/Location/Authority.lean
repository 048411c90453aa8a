import Namesake.Text.Hex
import Namesake.Text.Quoted
import Namesake.Text.Split

/-!
The authority of a URI, the part between two slashes and the next one. It is refused when its square
brackets do not enclose an address of the Internet, or when a character in it stands for one that would
end it.
-/

namespace Namesake.Location.Authority

open Text

/-- Why an authority is refused. -/
inductive Refusal where
  /-- Square brackets that do not enclose the host. -/
  | brackets
  /-- Brackets around something that is no address. -/
  | noAddress (host : String)
  /-- Brackets around an address of version four. -/
  | versionFour
  /-- Brackets around a malformed address of a later version. -/
  | laterVersion
  /-- A character that stands for a separator. -/
  | separator (authority : String)
  deriving DecidableEq, Repr, Inhabited

def Refusal.message : Refusal → String
  | .brackets => "Invalid IPv6 URL"
  | .noAddress host => s!"{quoted host} does not appear to be an IPv4 or IPv6 address"
  | .versionFour => "An IPv4 address cannot be in brackets"
  | .laterVersion => "IPvFuture address is invalid"
  | .separator authority =>
    s!"netloc '{authority}' contains invalid characters under NFKC normalization"

/-- One part of an address of version four: up to 255, without zeros in front. -/
def isDecimalOctet (ds : List Char) : Bool :=
  !ds.isEmpty && ds.length ≤ 3 && ds.all Char.isDigit && (ds == ['0'] || ds.head? != some '0')
    && decimal ds ≤ 255

def isVersionFour (cs : List Char) : Bool :=
  let parts := splitOn '.' cs
  parts.length == 4 && parts.all isDecimalOctet

/-- One part of an address of version six. -/
def isHexGroup (ds : List Char) : Bool :=
  !ds.isEmpty && ds.length ≤ 4 && ds.all fun c => (Hex.value? c).isSome

/-- Groups with colons between them, two of them standing for an address of version four at the end. -/
def groups? (cs : List Char) : Option (List (List Char)) :=
  let parts := splitOn ':' cs
  match parts.getLast? with
  | some last =>
    if parts.length < 3 then none
    else if last.contains '.' then
      if isVersionFour last then some (parts.dropLast ++ [['0'], ['0']]) else none
    else some parts
  | none => none

/-- The parts that are not written, if the groups leave some out: what stands before the gap and after
it. A gap at either end leaves one more empty part there. -/
def gap? (parts : List (List Char)) : Option (List (List Char) × List (List Char)) :=
  let inner := parts.dropLast.drop 1
  match inner.findIdx? (·.isEmpty) with
  | none => none
  | some i => some (parts.take (i + 1), parts.drop (i + 2))

/-- Groups in front of a gap: all written out, or a single empty one. -/
def isGapSide (side : List (List Char)) : Bool :=
  side == [[]] || side.all isHexGroup

/-- The number of groups written on one side of a gap. -/
def written (side : List (List Char)) : Nat :=
  if side == [[]] then 0 else side.length

/-- Eight groups, or fewer with one gap. -/
def areGroups (parts : List (List Char)) : Bool :=
  match gap? parts with
  | none => parts.length == 8 && parts.all isHexGroup
  | some (front, back) =>
    isGapSide front && isGapSide back && written front + written back < 8 && parts.length ≤ 9

/-- An address of version six, perhaps with a zone after a percent sign. -/
def isVersionSix (cs : List Char) : Bool :=
  let (address, zone) := cut '%' cs
  let zoneFits :=
    match zone with
    | none => true
    | some z => !z.isEmpty && !z.contains '%'
  zoneFits && (groups? address).any areGroups

/-- The letter v, a version in hexadecimal, a point, and something. -/
def isLaterVersion : List Char → Bool
  | 'v' :: rest =>
    let (version, tail) := cut '.' rest
    !version.isEmpty && version.all (fun c => (Hex.value? c).isSome)
      && (match tail with | some (_ :: _) => true | _ => false)
  | _ => false

def checkHost (host : List Char) : Except Refusal Unit :=
  if host.head? = some 'v' then
    if isLaterVersion host then .ok () else .error .laterVersion
  else if isVersionFour host then .error .versionFour
  else if isVersionSix host then .ok ()
  else .error (.noAddress (String.ofList host))

/-- Checks an authority that holds both brackets: they enclose the host, with a user before them and a
port after them at most. -/
def checkBracketed (cs : List Char) : Except Refusal Unit :=
  match cut '[' (afterLast '@' cs) with
  | (before, some inside) =>
    if !before.isEmpty then .error .brackets
    else
      match cut ']' inside with
      | (host, some (c :: _)) => if c = ':' then checkHost host else .error .brackets
      | (host, _) => checkHost host
  | (all, none) => checkHost (cut ':' all).1

/-- Characters whose compatibility form holds a slash, a question mark, a hash, an at sign or a colon. -/
def disguised : List Nat :=
  [0x2047, 0x2048, 0x2049, 0x2100, 0x2101, 0x2105, 0x2106, 0x2A74, 0xFE13, 0xFE16, 0xFE55, 0xFE56,
    0xFE5F, 0xFE6B, 0xFF03, 0xFF0F, 0xFF1A, 0xFF1F, 0xFF20]

def check (cs : List Char) : Except Refusal Unit :=
  let opened := cs.contains '['
  let closed := cs.contains ']'
  let brackets : Except Refusal Unit :=
    if opened != closed then .error .brackets
    else if opened then checkBracketed cs
    else .ok ()
  match brackets with
  | .error e => .error e
  | .ok () =>
    if cs.any fun c => disguised.contains c.toNat then .error (.separator (String.ofList cs)) else .ok ()

end Namesake.Location.Authority
