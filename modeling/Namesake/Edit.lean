import Namesake.Field
import Namesake.Text.Utf8

/-!
Edits of a text, with offsets counted in octets of its UTF-8 form. The edits of one list are all meant
for the same text. They are sorted by offset, edits of one offset staying in list order; a list in which
an edit begins before its forerunner ends is refused, then one whose last edit ends past the text. What
remains is applied from right to left, so every offset still means the place it was computed for.
-/

namespace Namesake

open Text

/-- Removes `length` octets at `offset` and puts `replacement` there. -/
structure Edit where
  offset : Nat
  length : Nat
  replacement : String
  deriving DecidableEq, Repr, Inhabited

namespace Edit

def stop (e : Edit) : Nat :=
  e.offset + e.length

/-- The edit with these numbers, neither of which may be negative. -/
def check (offset length : Int) (replacement : String) : Field.Checked Edit :=
  (Field.both (Field.within (.key "offset") (Field.natural offset))
    (Field.within (.key "length") (Field.natural length))).map
    fun (o, l) => ⟨o, l, replacement⟩

/-- Why a list of edits cannot be applied to a text: the second edit begins before the first one ends, an
edit ends past the text of `size` octets, or the octets that remain are no text. -/
inductive Refusal where
  | overlap (first second : Edit)
  | pastEnd (last : Edit) (size : Nat)
  | undecodable (e : Utf8.DecodeError)
  deriving DecidableEq, Repr, Inhabited

def Refusal.message : Refusal → String
  | .overlap a b => s!"Edit at {a.offset}..{a.stop} overlaps edit at {b.offset}..{b.stop}"
  | .pastEnd e size => s!"Edit ends at byte {e.stop} but text is only {size} bytes long"
  | .undecodable e => e.message

/-- The edits by offset; edits of one offset keep their order. -/
def sorted (edits : List Edit) : List Edit :=
  edits.mergeSort fun a b => a.offset ≤ b.offset

/-- The first two neighbours of which the second begins before the first ends. -/
def clash? : List Edit → Option (Edit × Edit)
  | a :: b :: rest => if b.offset < a.stop then some (a, b) else clash? (b :: rest)
  | _ => none

def splice (e : Edit) (data : Octets) : Octets :=
  data.take e.offset ++ Utf8.encode e.replacement ++ data.drop e.stop

/-- The octets with all edits of a sorted list applied, the last one first. -/
def spliceAll (edits : List Edit) (data : Octets) : Octets :=
  edits.foldr splice data

def applyOctets (edits : List Edit) (data : Octets) : Except Refusal Octets :=
  let ordered := sorted edits
  match clash? ordered with
  | some (a, b) => .error (.overlap a b)
  | none =>
    match ordered.getLast? with
    | some e =>
      if data.length < e.stop then .error (.pastEnd e data.length)
      else .ok (spliceAll ordered data)
    | none => .ok data

def applyAll (edits : List Edit) (text : String) : Except Refusal String :=
  match applyOctets edits (Utf8.encode text) with
  | .error r => .error r
  | .ok data =>
    match Utf8.decode? data with
    | .ok s => .ok s
    | .error e => .error (.undecodable e)

@[simp] theorem spliceAll_nil (data : Octets) : spliceAll [] data = data := rfl

@[simp] theorem spliceAll_cons (e : Edit) (es : List Edit) (data : Octets) :
    spliceAll (e :: es) data = splice e (spliceAll es data) := rfl

end Edit

end Namesake
