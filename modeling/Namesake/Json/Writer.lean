import Namesake.Json.Value
import Namesake.Text.Hex

/-!
Writing JSON text in ASCII: every other character is escaped as one or two groups of four hexadecimal
digits. `render` writes a value on one line; `renderTable` writes a table of texts on lines of its own,
names in ascending order.
-/

namespace Namesake.Json

open Text

/-- One unit of sixteen bits as an escape. -/
def unitEscape (n : Nat) : List Char :=
  ['\\', 'u', Hex.digit (n / 0x1000 % 16), Hex.digit (n / 0x100 % 16), Hex.digit (n / 0x10 % 16),
    Hex.digit (n % 16)]

def escape (c : Char) : List Char :=
  if c = '"' then ['\\', '"']
  else if c = '\\' then ['\\', '\\']
  else if c = '\n' then ['\\', 'n']
  else if c = '\r' then ['\\', 'r']
  else if c = '\t' then ['\\', 't']
  else if c = '\x08' then ['\\', 'b']
  else if c = '\x0c' then ['\\', 'f']
  else
    let n := c.toNat
    if 0x20 ≤ n ∧ n < 0x7F then [c]
    else if n < 0x10000 then unitEscape n
    else unitEscape (0xD800 + (n - 0x10000) / 0x400) ++ unitEscape (0xDC00 + (n - 0x10000) % 0x400)

def quote (s : String) : List Char :=
  '"' :: s.toList.flatMap escape ++ ['"']

/-- The words for a number. -/
def renderReal : Binary64 → String
  | .nan => "NaN"
  | .infinite false => "Infinity"
  | .infinite true => "-Infinity"
  | x => x.render

mutual

def renderChars : Value → List Char
  | .null => "null".toList
  | .bool true => "true".toList
  | .bool false => "false".toList
  | .int n => (toString n).toList
  | .real x => (renderReal x).toList
  | .text s => quote s
  | .list [] => ['[', ']']
  | .list (x :: xs) => '[' :: renderChars x ++ renderItems xs
  | .object [] => ['\x7b', '\x7d']
  | .object ((name, v) :: fs) =>
    '\x7b' :: quote name ++ ':' :: ' ' :: renderChars v ++ renderMembers fs

/-- The elements after the first one, and the closing bracket. -/
def renderItems : List Value → List Char
  | [] => [']']
  | x :: xs => ',' :: ' ' :: renderChars x ++ renderItems xs

/-- The fields after the first one, and the closing brace. -/
def renderMembers : List (String × Value) → List Char
  | [] => ['\x7d']
  | (name, v) :: fs => ',' :: ' ' :: quote name ++ ':' :: ' ' :: renderChars v ++ renderMembers fs

end

def render (v : Value) : String :=
  String.ofList (renderChars v)

/-- The rows by name, in the order of code points. -/
def sortRows (rows : Fields String) : Fields String :=
  rows.mergeSort fun a b => !decide (b.1 < a.1)

def renderRow (row : String × String) : List Char :=
  '\n' :: ' ' :: ' ' :: quote row.1 ++ ':' :: ' ' :: quote row.2

def renderRows : Fields String → List Char
  | [] => []
  | [row] => renderRow row
  | row :: rest => renderRow row ++ ',' :: renderRows rest

/-- A table of texts, one row a line, or the empty object. -/
def renderTable (rows : Fields String) : String :=
  match sortRows rows with
  | [] => "\x7b\x7d"
  | sorted => String.ofList ('\x7b' :: renderRows sorted ++ ['\n', '\x7d'])

end Namesake.Json
