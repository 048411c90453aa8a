import Namesake.Failure
import Namesake.Json.Value

/-!
The rules that a project manifest declares: for a namespace, the directories that hold its types. They
stand in two sections, of which the second is for development. A section that is no table is passed
over; rules for one namespace are put together at its first place.
-/

namespace Namesake.Manifest

open Json

/-- For every namespace the directories that hold its types, as they are written. -/
abbrev Rules := Fields (List Value)

/-- The sections that hold rules, in order. -/
def sections : List String := ["autoload", "autoload-dev"]

def rulesField : String := "psr-4"

/-- The directories of one rule: a text is one directory. -/
def directories : Value → Except ShapeFault (List Value)
  | .text s => .ok [.text s]
  | .list items => .ok items
  | .object fields => .ok (fields.map fun f => .text f.1)
  | v => .error (.noDirectories v.word)

def addRule (rules : Rules) (rule : String × Value) : Except ShapeFault Rules :=
  (directories rule.2).map fun ds =>
    Fields.set rule.1 ((Fields.get? rule.1 rules).getD [] ++ ds) rules

def table (section_ : Fields Value) : Except ShapeFault (Fields Value) :=
  match Fields.get? rulesField section_ with
  | none => .ok []
  | some (.object fields) => .ok fields
  | some v => if v.isPresent then .error (.noRules v.word) else .ok []

def addSection (manifest : Fields Value) (rules : Rules) (name : String) : Except ShapeFault Rules :=
  match Fields.get? name manifest with
  | some (.object fields) => do
    let rows ← table fields
    rows.foldlM addRule rules
  | _ => .ok rules

def rules : Value → Except ShapeFault Rules
  | .object fields => sections.foldlM (addSection fields) []
  | v => .error (.noSections v.word)

end Namesake.Manifest
