import Namesake.Json.Value
import Namesake.Text.Hex
import Namesake.Text.Split

/-!
Reading JSON text. Every reader takes the characters that remain and returns a value with the characters
after it, or a fault with the number of characters from the faulty place to the end; `parse` turns that
number into a position. The readers of values are driven by a budget that starts at the length of the
text plus one. Each call spends one and each nested call has read a character, so it never runs out.
-/

namespace Namesake.Json

open Text

/-- What is wrong with a text. -/
inductive Reason where
  | noValue
  | noName
  | noColon
  | noComma
  | openText
  | bareControl
  | badEscape
  /-- Four hexadecimal digits and the rest of the text are missing. -/
  | badUnicode
  | extra
  | byteOrderMark
  deriving DecidableEq, Repr, Inhabited

/-- A reason at a place, given by how many characters are left from there. -/
structure Fault where
  reason : Reason
  left : Nat
  deriving DecidableEq, Repr, Inhabited

/-- A reason at a position, which counts the characters before it. -/
structure ReadError where
  reason : Reason
  position : Nat
  deriving DecidableEq, Repr, Inhabited

/-- The blanks between tokens. -/
def isBlank (c : Char) : Bool :=
  c == ' ' || c == '\t' || c == '\n' || c == '\r'

def skip (cs : List Char) : List Char :=
  cs.dropWhile isBlank

def hex4? (a b c d : Char) : Option Nat := do
  let a ← Hex.value? a
  let b ← Hex.value? b
  let c ← Hex.value? c
  let d ← Hex.value? d
  return ((a * 16 + b) * 16 + c) * 16 + d

/-- The first half of a pair that stands for one character. -/
def isHigh (n : Nat) : Bool :=
  0xD800 ≤ n && n < 0xDC00

/-- The second half of such a pair. -/
def isLow (n : Nat) : Bool :=
  0xDC00 ≤ n && n < 0xE000

/-- The character of a pair. -/
def joinPair (high low : Nat) : Char :=
  Char.ofNat (0x10000 + (high - 0xD800) * 0x400 + (low - 0xDC00))

/-- The character of a single unit; half a pair is shown as the replacement character. -/
def loneUnit (n : Nat) : Char :=
  if isHigh n || isLow n then '\uFFFD' else Char.ofNat n

def simpleEscape? (c : Char) : Option Char :=
  if c = '"' then some '"'
  else if c = '\\' then some '\\'
  else if c = '/' then some '/'
  else if c = 'b' then some '\x08'
  else if c = 'f' then some '\x0c'
  else if c = 'n' then some '\n'
  else if c = 'r' then some '\r'
  else if c = 't' then some '\t'
  else none

/-- A character put before what a reader returns. -/
def prepend (c : Char) :
    Except Fault (List Char × List Char) → Except Fault (List Char × List Char)
  | .ok (cs, rest) => .ok (c :: cs, rest)
  | .error e => .error e

/-- The characters after a second group of four hexadecimal digits, with its value, if a backslash and
the letter of such a group come next. -/
def secondUnit? : List Char → Option (Option Nat × List Char)
  | '\\' :: 'u' :: a :: b :: c :: d :: rest => some (hex4? a b c d, rest)
  | _ => none

theorem length_of_secondUnit? {cs rest : List Char} {n : Option Nat}
    (h : secondUnit? cs = some (n, rest)) : rest.length < cs.length := by
  unfold secondUnit? at h
  split at h
  · simp only [Option.some.injEq, Prod.mk.injEq] at h
    simp only [← h.2, List.length_cons]
    omega
  · simp at h

/-- Reads a text after its opening quote, from which on `left` characters remain. -/
def textBody (left : Nat) : List Char → Except Fault (List Char × List Char)
  | [] => .error ⟨.openText, left⟩
  | '"' :: rest => .ok ([], rest)
  | ['\\'] => .error ⟨.openText, left⟩
  | '\\' :: 'u' :: a :: b :: c :: d :: e :: rest =>
    match hex4? a b c d with
    | none => .error ⟨.badUnicode, rest.length + 6⟩
    | some n =>
      match isHigh n, h : secondUnit? (e :: rest) with
      | true, some (none, more) => .error ⟨.badUnicode, more.length + 5⟩
      | true, some (some m, more) =>
        if isLow m then
          have := length_of_secondUnit? h
          prepend (joinPair n m) (textBody left more)
        else prepend (loneUnit n) (textBody left (e :: rest))
      | _, _ => prepend (loneUnit n) (textBody left (e :: rest))
  | '\\' :: c :: rest =>
    if c = 'u' then .error ⟨.badUnicode, rest.length + 1⟩
    else
      match simpleEscape? c with
      | some x => prepend x (textBody left rest)
      | none => .error ⟨.badEscape, rest.length + 2⟩
  | c :: rest =>
    if c.toNat < 0x20 then .error ⟨.bareControl, rest.length + 1⟩
    else prepend c (textBody left rest)
termination_by cs => cs.length
decreasing_by all_goals (simp_all only [List.length_cons]; omega)

theorem textBody_quote (left : Nat) (rest : List Char) : textBody left ('"' :: rest) = .ok ([], rest) := by
  rw [textBody]

def spanDigits (cs : List Char) : List Char × List Char :=
  (cs.takeWhile Char.isDigit, cs.dropWhile Char.isDigit)

/-- The part after the point, if a point with a digit is next. -/
def fraction? : List Char → Option (List Char × List Char)
  | '.' :: rest =>
    match spanDigits rest with
    | ([], _) => none
    | found => some found
  | _ => none

/-- The exponent, if the letter and a digit are next. -/
def exponent? : List Char → Option (Int × List Char)
  | c :: rest =>
    if c = 'e' ∨ c = 'E' then
      let (negative, rest) : Bool × List Char :=
        match rest with
        | '-' :: r => (true, r)
        | '+' :: r => (false, r)
        | r => (false, r)
      match spanDigits rest with
      | ([], _) => none
      | (ds, r) => some (if negative then -(decimal ds : Int) else decimal ds, r)
    else none
  | [] => none

/-- The digits before the point: a zero alone, or digits that begin with another one. -/
def whole? : List Char → Option (List Char × List Char)
  | [] => none
  | '0' :: rest => some (['0'], rest)
  | c :: rest => if c.isDigit then some (spanDigits (c :: rest)) else none

def number? (cs : List Char) : Option (Value × List Char) := do
  let (negative, unsigned) : Bool × List Char :=
    match cs with
    | '-' :: rest => (true, rest)
    | _ => (false, cs)
  let (ds, rest) ← whole? unsigned
  let frac := fraction? rest
  let (fs, rest) := frac.getD ([], rest)
  let exp := exponent? rest
  let (x, rest) := exp.getD (0, rest)
  if frac.isSome || exp.isSome then
    return (.real (Binary64.ofDecimal negative (decimal (ds ++ fs)) (x - fs.length)), rest)
  else
    return (.int (if negative then -(decimal ds : Int) else decimal ds), rest)

/-- Reads one of the words that stand for a value, or a number. -/
def word? : List Char → Option (Value × List Char)
  | 'n' :: 'u' :: 'l' :: 'l' :: rest => some (.null, rest)
  | 't' :: 'r' :: 'u' :: 'e' :: rest => some (.bool true, rest)
  | 'f' :: 'a' :: 'l' :: 's' :: 'e' :: rest => some (.bool false, rest)
  | 'N' :: 'a' :: 'N' :: rest => some (.real .nan, rest)
  | 'I' :: 'n' :: 'f' :: 'i' :: 'n' :: 'i' :: 't' :: 'y' :: rest =>
    some (.real (.infinite false), rest)
  | '-' :: 'I' :: 'n' :: 'f' :: 'i' :: 'n' :: 'i' :: 't' :: 'y' :: rest =>
    some (.real (.infinite true), rest)
  | cs => number? cs

mutual

def value : Nat → List Char → Except Fault (Value × List Char)
  | 0, cs => .error ⟨.noValue, cs.length⟩
  | budget + 1, cs =>
    match cs with
    | '"' :: rest => (textBody cs.length rest).map fun (s, r) => (.text (String.ofList s), r)
    | '[' :: rest =>
      match skip rest with
      | ']' :: r => .ok (.list [], r)
      | r => (items budget r).map fun (xs, r) => (.list xs, r)
    | '\x7b' :: rest =>
      match skip rest with
      | '\x7d' :: r => .ok (.object [], r)
      | r => (members budget [] r).map fun (fs, r) => (.object fs, r)
    | _ =>
      match word? cs with
      | some found => .ok found
      | none => .error ⟨.noValue, cs.length⟩

/-- Reads the elements of a list up to its closing bracket. -/
def items : Nat → List Char → Except Fault (List Value × List Char)
  | 0, cs => .error ⟨.noValue, cs.length⟩
  | budget + 1, cs =>
    match value budget cs with
    | .error e => .error e
    | .ok (x, rest) =>
      match skip rest with
      | ']' :: r => .ok ([x], r)
      | ',' :: r => (items budget (skip r)).map fun (xs, r) => (x :: xs, r)
      | r => .error ⟨.noComma, r.length⟩

/-- Reads the fields of an object up to its closing brace; `found` holds those already read. -/
def members : Nat → Fields Value → List Char → Except Fault (Fields Value × List Char)
  | 0, _, cs => .error ⟨.noName, cs.length⟩
  | budget + 1, found, cs =>
    match cs with
    | '"' :: rest =>
      match textBody cs.length rest with
      | .error e => .error e
      | .ok (name, rest) =>
        match skip rest with
        | ':' :: rest =>
          match value budget (skip rest) with
          | .error e => .error e
          | .ok (v, rest) =>
            let found := Fields.set (String.ofList name) v found
            match skip rest with
            | '\x7d' :: r => .ok (found, r)
            | ',' :: r => members budget found (skip r)
            | r => .error ⟨.noComma, r.length⟩
        | r => .error ⟨.noColon, r.length⟩
    | _ => .error ⟨.noName, cs.length⟩

end

theorem value_text (budget : Nat) (rest : List Char) :
    value (budget + 1) ('"' :: rest) =
      (textBody (rest.length + 1) rest).map fun (s, r) => (.text (String.ofList s), r) := by
  rw [value, List.length_cons]

/-- The value that a text spells, blanks around it allowed. -/
def parseChars (cs : List Char) : Except ReadError Value :=
  let total := cs.length
  let place (f : Fault) : ReadError := ⟨f.reason, total - f.left⟩
  if cs.head? = some '\uFEFF' then .error ⟨.byteOrderMark, 0⟩
  else
    match value (total + 1) (skip cs) with
    | .error f => .error (place f)
    | .ok (v, rest) =>
      match skip rest with
      | [] => .ok v
      | r => .error (place ⟨.extra, r.length⟩)

def parse (s : String) : Except ReadError Value :=
  parseChars s.toList

end Namesake.Json
