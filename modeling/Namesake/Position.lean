import Namesake.Text.Utf8

/-!
Rows and columns of a text, counted from zero, a column in octets. An offset is also read when it lies
outside the text: past the end it goes on in the last row, and below zero it is counted from the end to
find the row, while the column is the distance from the start of that row.
-/

namespace Namesake

/-- A place in a text by row and column: the number of line ends before it and the distance from the start
of its row. -/
structure Position where
  row : Int
  column : Int
  deriving DecidableEq, Repr, Inhabited

namespace Position

def newline : UInt8 := 0x0A

/-- How many octets of a text with `size` octets lie before `offset`. -/
def reach (size : Nat) (offset : Int) : Nat :=
  if offset < 0 then (size + offset).toNat else min offset.toNat size

/-- The offset after the last line end of the octets, or zero. -/
def lineStart (data : Octets) : Nat :=
  data.length - (data.reverse.takeWhile (· != newline)).length

def ofOffset (data : Octets) (offset : Int) : Position :=
  let before := data.take (reach data.length offset)
  ⟨before.count newline, offset - lineStart before⟩

end Position

end Namesake
