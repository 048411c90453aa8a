import Namesake.Field
import Namesake.Json.Value
import Namesake.Text.Blank
import Namesake.Text.Split

/-!
Integers from loose values: truth values count as one and zero, a number without a fraction and a text
that spells an integer count as that integer. A text may have blanks around it, a sign, zeros in front,
underscores between digits, and a fraction of zeros.
-/

namespace Namesake.Schema

open Json Text

/-- The greatest number of digits that are read. -/
def digitLimit : Nat := 4300

/-- White space other than the four separators of records. -/
def isMargin (c : Char) : Bool :=
  Text.isBlank c && !(0x1C ≤ c.toNat && c.toNat ≤ 0x1F)

/-- The text without a fraction of zeros. -/
def dropZeroFraction (cs : List Char) : List Char :=
  match cut '.' cs with
  | (front, some tail) => if tail.all (· == '0') then front else cs
  | (_, none) => cs

/-- Digits without the underscores between them; two in a row, or one at an end, spoil the text. -/
def joinGroups (cs : List Char) : Option (List Char) :=
  let groups := splitOn '_' cs
  if groups.any (·.isEmpty) then none else some groups.flatten

/-- Digits after zeros, which may have any underscores among them. -/
def dropLeadingZeros (cs : List Char) : List Char :=
  match cs with
  | '0' :: _ =>
    match cs.dropWhile fun c => c == '0' || c == '_' with
    | [] => cs.getLast?.toList
    | c :: rest => if c.isDigit then c :: rest else cs.drop (cs.length - rest.length - 2)
  | _ => cs

def digits (cs : List Char) : Except Field.Fault Nat :=
  if cs.isEmpty || !cs.all Char.isDigit || (cs.head? == some '0' && cs.length > 1) then
    .error .unreadableInteger
  else if digitLimit < cs.length then .error .oversizedInteger
  else .ok (decimal cs)

def integerText (s : String) : Except Field.Fault Int :=
  let cs := dropWhileEnd isMargin (s.toList.dropWhile isMargin)
  let read (ds : List Char) : Except Field.Fault Nat :=
    match joinGroups (dropZeroFraction ds) with
    | some ds => digits ds
    | none => .error .unreadableInteger
  match cs with
  | '-' :: '_' :: rest => (read rest).map fun n => -(n : Int)
  | '-' :: rest => (read rest).map fun n => -(n : Int)
  | '+' :: rest => (read (dropLeadingZeros rest)).map fun n => (n : Int)
  | rest => (read (dropLeadingZeros rest)).map fun n => (n : Int)

/-- The bounds between which a number with a point is read as an integer. -/
def realLimit : Int := 0x8000000000000000

def integer : Value → Field.Checked Int
  | .int n => .ok n
  | .bool b => .ok (if b then 1 else 0)
  | .real x =>
    match x with
    | .finite .. =>
      if !x.isIntegral then Field.fail .fractional
      else if -realLimit ≤ x.toInt ∧ x.toInt < realLimit then .ok x.toInt
      else Field.fail .oversizedInteger
    | _ => Field.fail .notFinite
  | .text s =>
    match integerText s with
    | .ok n => .ok n
    | .error f => Field.fail f
  | _ => Field.fail .notInteger

end Namesake.Schema
