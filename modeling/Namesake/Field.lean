/-!
Problems found while a record is read from loose data: what is wrong, and at which place. A record is
read field by field, and the problems of all fields are reported together, in field order.
-/

namespace Namesake.Field

/-- One step from a record to a part of it: into the field of a name, or into an element. -/
inductive Step where
  | key (name : String)
  | index (i : Nat)
  deriving DecidableEq, Repr, Inhabited

/-- What is wrong with a value. -/
inductive Fault where
  | missing
  /-- Neither an integer nor a value that stands for one. -/
  | notInteger
  | fractional
  | unreadableInteger
  /-- A text or number past the size that is read as an integer. -/
  | oversizedInteger
  | notFinite
  | negative
  | notText
  | emptyText
  /-- No sequence, where a fixed one is needed. -/
  | notTuple
  /-- No sequence, where a list is needed. -/
  | notList
  | notRecord (kind : String)
  /-- No record, in a request. -/
  | notObject
  | notOneOf (words : List String)
  /-- Refused by a rule over the value, with the rule's own words. -/
  | refused (reason : String)
  | notJson
  deriving DecidableEq, Repr, Inhabited

/-- The words in quotation marks, separated by commas, the last two by "or". -/
def alternatives : List String → String
  | [] => ""
  | [w] => s!"'{w}'"
  | [v, w] => s!"'{v}' or '{w}'"
  | w :: rest => s!"'{w}', {alternatives rest}"

def Fault.kind : Fault → String
  | .missing => "missing"
  | .notInteger => "int_type"
  | .fractional => "int_from_float"
  | .unreadableInteger => "int_parsing"
  | .oversizedInteger => "int_parsing_size"
  | .notFinite => "finite_number"
  | .negative => "greater_than_equal"
  | .notText => "string_type"
  | .emptyText => "string_too_short"
  | .notTuple => "tuple_type"
  | .notList => "list_type"
  | .notRecord _ => "model_type"
  | .notObject => "model_attributes_type"
  | .notOneOf _ => "enum"
  | .refused _ => "value_error"
  | .notJson => "json_invalid"

def Fault.message : Fault → String
  | .missing => "Field required"
  | .notInteger => "Input should be a valid integer"
  | .fractional => "Input should be a valid integer, got a number with a fractional part"
  | .unreadableInteger => "Input should be a valid integer, unable to parse string as an integer"
  | .oversizedInteger => "Unable to parse input string as an integer, exceeded maximum size"
  | .notFinite => "Input should be a finite number"
  | .negative => "Input should be greater than or equal to 0"
  | .notText => "Input should be a valid string"
  | .emptyText => "String should have at least 1 character"
  | .notTuple => "Input should be a valid tuple"
  | .notList => "Input should be a valid list"
  | .notRecord kind => s!"Input should be a valid dictionary or instance of {kind}"
  | .notObject => "Input should be a valid dictionary or object to extract fields from"
  | .notOneOf words => s!"Input should be {alternatives words}"
  | .refused reason => s!"Value error, {reason}"
  | .notJson => "JSON decode error"

/-- A fault, and the steps from the whole record to the value it is about. -/
structure Problem where
  fault : Fault
  place : List Step
  deriving DecidableEq, Repr, Inhabited

/-- A value read from loose data, or the problems that were found. -/
abbrev Checked (α : Type) := Except (List Problem) α

def fail {α : Type} (f : Fault) : Checked α :=
  .error [⟨f, []⟩]

/-- The problems of a part as problems of the whole. -/
def within {α : Type} (step : Step) : Checked α → Checked α
  | .ok a => .ok a
  | .error ps => .error (ps.map fun p => { p with place := step :: p.place })

/-- Two parts read side by side: the problems of both are kept. -/
def both {α β : Type} : Checked α → Checked β → Checked (α × β)
  | .ok a, .ok b => .ok (a, b)
  | .ok _, .error qs => .error qs
  | .error ps, .ok _ => .error ps
  | .error ps, .error qs => .error (ps ++ qs)

def natural (n : Int) : Checked Nat :=
  if n < 0 then fail .negative else .ok n.toNat

theorem natural_eq_ok {n : Int} {k : Nat} : natural n = .ok k ↔ n = k := by
  unfold natural fail
  split
  · simp; omega
  · simp; omega

end Namesake.Field
