import Namesake.Binary64

/-!
JSON values. Numbers without a point and an exponent are integers of any size, all others binary
floating-point numbers, for which the words `NaN`, `Infinity` and `-Infinity` are also read. An object
keeps its fields in the order in which their names first occur; a repeated name keeps its first place
and takes the last value.
-/

namespace Namesake.Json

/-- A JSON value. -/
inductive Value where
  | null
  | bool (b : Bool)
  | int (n : Int)
  /-- A number with a point or an exponent. -/
  | real (x : Binary64)
  | text (s : String)
  | list (items : List Value)
  | object (fields : List (String × Value))
  deriving Repr, Inhabited, BEq

/-- Fields of any type, by name. -/
abbrev Fields (α : Type) := List (String × α)

/-- Sets a field: in its place if the name is there, else at the end. -/
def Fields.set {α : Type} (name : String) (v : α) : Fields α → Fields α
  | [] => [(name, v)]
  | (n, w) :: rest => if n = name then (n, v) :: rest else (n, w) :: Fields.set name v rest

/-- Fields from pairs; a repeated name keeps its first place and takes the last value. -/
def Fields.ofPairs {α : Type} (pairs : List (String × α)) : Fields α :=
  pairs.foldl (fun fields p => Fields.set p.1 p.2 fields) []

def Fields.get? {α : Type} (name : String) : Fields α → Option α
  | [] => none
  | (n, w) :: rest => if n = name then some w else Fields.get? name rest

def Fields.erase {α : Type} (name : String) (fields : Fields α) : Fields α :=
  fields.filter fun f => f.1 ≠ name

theorem Fields.get?_set {α : Type} (name key : String) (v : α) (fields : Fields α) :
    Fields.get? key (Fields.set name v fields)
      = if key = name then some v else Fields.get? key fields := by
  induction fields with
  | nil => simp only [set, get?, eq_comm]
  | cons f rest ih =>
    obtain ⟨n, w⟩ := f
    by_cases hn : n = name
    · subst hn
      by_cases hk : n = key
      · simp [set, get?, hk]
      · simp [set, get?, hk, Ne.symm hk]
    · by_cases hk : n = key
      · subst hk
        simp [set, get?, hn]
      · simp [set, get?, hn, hk, ih]

namespace Value

def field? (name : String) : Value → Option Value
  | .object fields => Fields.get? name fields
  | _ => none

/-- A value that says something: neither absent, false, zero nor empty. -/
def isPresent : Value → Bool
  | .null => false
  | .bool b => b
  | .int n => n != 0
  | .real x => !x.isZero
  | .text s => !s.isEmpty
  | .list xs => !xs.isEmpty
  | .object fs => !fs.isEmpty

def word : Value → String
  | .null => "NoneType"
  | .bool _ => "bool"
  | .int _ => "int"
  | .real _ => "float"
  | .text _ => "str"
  | .list _ => "list"
  | .object _ => "dict"

end Value

end Namesake.Json
