import Namesake.Text.Hex

/-!
UTF-8 as octets. `encode` writes a text as a list of octets. The two readers share one machine that
stands either between characters or inside one that still owes octets: `decode?` refuses an ill-formed
list and says where and why, `decodeLossy` puts one U+FFFD in the place of every longest ill-formed
piece. A reader step looks at one octet, so both are plain recursions on the list.
-/

namespace Namesake

abbrev Octets := List UInt8

namespace Text.Utf8

def encodeChars (cs : List Char) : Octets :=
  cs.flatMap String.utf8EncodeChar

def encode (s : String) : Octets :=
  encodeChars s.toList

def size (s : String) : Nat :=
  s.utf8ByteSize

/-- Why a piece of a list of octets is no character. -/
inductive Fault where
  | badStart
  | badContinuation
  | truncated
  deriving DecidableEq, Repr, Inhabited

/-- The first ill-formed piece, the octets from `start` up to `stop`: what is wrong with it, and its first
octet. -/
structure DecodeError where
  fault : Fault
  first : UInt8
  start : Nat
  stop : Nat
  deriving DecidableEq, Repr, Inhabited

/-- A character that has begun: its first octet and where it stands, how many octets are owed, the
bounds of the next one, and the bits read so far. -/
structure Pending where
  first : UInt8
  start : Nat
  /-- How many octets are owed after the next one. -/
  more : Nat
  low : UInt8
  high : UInt8
  bits : Nat
  deriving DecidableEq, Repr, Inhabited

/-- What an octet between characters does: it is a whole character, begins a longer one, or begins none. -/
inductive Opening where
  | whole (c : Char)
  | begins (p : Pending)
  | invalid
  deriving DecidableEq, Repr, Inhabited

/-- The table of first octets. The bounds of the second octet leave out overlong forms, surrogates and
code points past the last plane. -/
def opening (pos : Nat) (b : UInt8) : Opening :=
  let bits (lead : Nat) := b.toNat - lead
  if b < 0x80 then .whole (Char.ofNat b.toNat)
  else if b < 0xC2 then .invalid
  else if b < 0xE0 then .begins ⟨b, pos, 0, 0x80, 0xBF, bits 0xC0⟩
  else if b = 0xE0 then .begins ⟨b, pos, 1, 0xA0, 0xBF, bits 0xE0⟩
  else if b = 0xED then .begins ⟨b, pos, 1, 0x80, 0x9F, bits 0xE0⟩
  else if b < 0xF0 then .begins ⟨b, pos, 1, 0x80, 0xBF, bits 0xE0⟩
  else if b = 0xF0 then .begins ⟨b, pos, 2, 0x90, 0xBF, bits 0xF0⟩
  else if b < 0xF4 then .begins ⟨b, pos, 2, 0x80, 0xBF, bits 0xF0⟩
  else if b = 0xF4 then .begins ⟨b, pos, 2, 0x80, 0x8F, bits 0xF0⟩
  else .invalid

/-- The pending character after one more octet, which is known to lie within its bounds. -/
def Pending.accept (p : Pending) (b : UInt8) : Char ⊕ Pending :=
  let bits := p.bits * 64 + (b.toNat - 0x80)
  match p.more with
  | 0 => .inl (Char.ofNat bits)
  | m + 1 => .inr { p with more := m, low := 0x80, high := 0xBF, bits := bits }

/-- Reads octets from position `pos` on, `p` being the character under way, and refuses the first
ill-formed piece. -/
def decodeFrom (pos : Nat) (p : Option Pending) : Octets → Except DecodeError (List Char)
  | [] =>
    match p with
    | none => .ok []
    | some p => .error ⟨.truncated, p.first, p.start, pos⟩
  | b :: rest =>
    match p with
    | none =>
      match opening pos b with
      | .whole c => (decodeFrom (pos + 1) none rest).map (c :: ·)
      | .begins q => decodeFrom (pos + 1) (some q) rest
      | .invalid => .error ⟨.badStart, b, pos, pos + 1⟩
    | some p =>
      if p.low ≤ b ∧ b ≤ p.high then
        match p.accept b with
        | .inl c => (decodeFrom (pos + 1) none rest).map (c :: ·)
        | .inr q => decodeFrom (pos + 1) (some q) rest
      else .error ⟨.badContinuation, p.first, p.start, pos⟩

def decode? (bytes : Octets) : Except DecodeError String :=
  (decodeFrom 0 none bytes).map String.ofList

/-- The mark that stands for an ill-formed piece. -/
def replacement : Char := '\uFFFD'

/-- Reads octets and puts `replacement` for every longest piece that is no character and no beginning
of one that could go on. -/
def decodeLossyFrom (p : Option Pending) : Octets → List Char
  | [] => if p.isSome then [replacement] else []
  | b :: rest =>
    let fresh : Unit → List Char := fun _ =>
      match opening 0 b with
      | .whole c => c :: decodeLossyFrom none rest
      | .begins q => decodeLossyFrom (some q) rest
      | .invalid => replacement :: decodeLossyFrom none rest
    match p with
    | none => fresh ()
    | some p =>
      if p.low ≤ b ∧ b ≤ p.high then
        match p.accept b with
        | .inl c => c :: decodeLossyFrom none rest
        | .inr q => decodeLossyFrom (some q) rest
      else replacement :: fresh ()

/-- The text of a list of octets, ill-formed pieces replaced. -/
def decodeLossy (bytes : Octets) : String :=
  String.ofList (decodeLossyFrom none bytes)

def Fault.words : Fault → String
  | .badStart => "invalid start byte"
  | .badContinuation => "invalid continuation byte"
  | .truncated => "unexpected end of data"

/-- The wording of a refusal: one octet is shown, more are given as a range of positions. -/
def DecodeError.message (e : DecodeError) : String :=
  let place :=
    if e.stop = e.start + 1 then s!"byte 0x{String.ofList (Hex.octet e.first)} in position {e.start}"
    else s!"bytes in position {e.start}-{e.stop - 1}"
  s!"'utf-8' codec can't decode {place}: {e.fault.words}"

@[simp] theorem encodeChars_append (xs ys : List Char) :
    encodeChars (xs ++ ys) = encodeChars xs ++ encodeChars ys := by
  simp [encodeChars]

@[simp] theorem encodeChars_nil : encodeChars [] = [] := rfl

end Text.Utf8

end Namesake
