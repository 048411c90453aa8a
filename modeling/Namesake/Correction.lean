import Namesake.ClassName
import Namesake.Diagnostic
import Namesake.Edit
import Namesake.Syntax

/-!
What has to change in a text so that it declares a given class: the namespace clause is added or
replaced, and the name of the first type is replaced. Each correction knows its edit and the clause or
declaration it is about; `edits` and `diagnostics` are two views of the same corrections, in the same
order.
-/

namespace Namesake

open Text Syntax

/-- A correction of the namespace: the edit, the namespace that is written, and the clause that is replaced,
if there is one. -/
structure SpaceCorrection where
  edit : Edit
  space : String
  clause : Option Clause
  deriving DecidableEq, Repr, Inhabited

/-- A correction of a type name, with the declaration whose name is replaced. -/
structure NameCorrection where
  edit : Edit
  name : String
  declaration : Declaration
  deriving DecidableEq, Repr, Inhabited

def SpaceCorrection.message (c : SpaceCorrection) : String :=
  "Namespace should probably be \"" ++ c.space ++ "\""

def NameCorrection.message (c : NameCorrection) : String :=
  "Class name should probably be \"" ++ c.name ++ "\""

/-- The finding about a namespace: it is about the whole clause, or about the start of the text. -/
def SpaceCorrection.diagnostic (c : SpaceCorrection) : Field.Checked Diagnostic :=
  let range :=
    match c.clause with
    | some clause => Span.check clause.start clause.stop
    | none => Span.check 0 0
  range.map fun r => ⟨r, c.message, .warning⟩

/-- The finding about a type name: it is about the whole declaration. -/
def NameCorrection.diagnostic (c : NameCorrection) : Field.Checked Diagnostic :=
  (Span.check c.declaration.start c.declaration.stop).map fun r => ⟨r, c.message, .warning⟩

/-- All that has to change so that a text declares a class. -/
structure Corrections where
  className : ClassName
  space : Option SpaceCorrection
  name : Option NameCorrection
  deriving DecidableEq, Repr, Inhabited

namespace Corrections

def statement (space : String) : String :=
  "namespace " ++ space ++ ";"

/-- What is put into a text without a clause, at an offset: the statement on a line of its own, and
before it a tag if it stands at the very start. -/
def insertion (space : String) (offset : Nat) : String :=
  let clause := "\n" ++ statement space ++ "\n"
  if offset = 0 then "<?php\n" ++ clause else clause

/-- What stands in the place of the header of a clause. -/
def replacement (space : String) (clause : Clause) : String :=
  if clause.braced then "namespace " ++ space else statement space

/-- What has to change about the namespace. An empty one is never written. -/
def fixSpace (t : Tree) (space : String) : Field.Checked (Option SpaceCorrection) :=
  if space = "" then .ok none
  else
    match t.clause? with
    | none =>
      let offset := t.leading?.getD 0
      .ok (some ⟨⟨offset, 0, insertion space offset⟩, space, none⟩)
    | some clause =>
      if clause.name = some space then .ok none
      else
        (Edit.check clause.start (clause.headerStop - clause.start) (replacement space clause)).map
          fun e => some ⟨e, space, some clause⟩

def fixName (t : Tree) (name : String) : Field.Checked (Option NameCorrection) :=
  match t.declaration? with
  | none => .ok none
  | some d =>
    match d.name with
    | none => .ok none
    | some old =>
      if old.text = name then .ok none
      else (Edit.check old.start (Utf8.size old.text) name).map fun e => some ⟨e, name, d⟩

def ofTree (t : Tree) (c : ClassName) : Field.Checked Corrections :=
  match fixSpace t c.space with
  | .error ps => .error ps
  | .ok space => (fixName t c.name).map fun name => ⟨c, space, name⟩

/-- The edits, that of the namespace first. -/
def edits (c : Corrections) : List Edit :=
  (c.space.map (·.edit)).toList ++ (c.name.map (·.edit)).toList

/-- The findings, in the order of the edits. -/
def diagnostics (c : Corrections) : Field.Checked (List Diagnostic) :=
  match c.space.toList.mapM SpaceCorrection.diagnostic with
  | .error ps => .error ps
  | .ok front => (c.name.toList.mapM NameCorrection.diagnostic).map fun back => front ++ back

end Corrections

end Namesake
