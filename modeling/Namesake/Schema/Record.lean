import Namesake.ClassName
import Namesake.Diagnostic
import Namesake.Edit
import Namesake.Position
import Namesake.Schema.Integer
import Namesake.SourceUnit

/-!
Records from loose values, and as values again. The fields of a record are read in order, the problems
of all of them are kept, and fields of other names are passed over.
-/

namespace Namesake.Schema

open Json

def text : Value → Field.Checked String
  | .text s => .ok s
  | _ => Field.fail .notText

def natural (v : Value) : Field.Checked Nat :=
  match integer v with
  | .ok n => Field.natural n
  | .error ps => .error ps

def required {α : Type} (name : String) (read : Value → Field.Checked α) (fields : Fields Value) :
    Field.Checked α :=
  Field.within (.key name)
    (match Fields.get? name fields with
    | some v => read v
    | none => Field.fail .missing)

def defaulted {α : Type} (name : String) (standard : α) (read : Value → Field.Checked α)
    (fields : Fields Value) : Field.Checked α :=
  match Fields.get? name fields with
  | some v => Field.within (.key name) (read v)
  | none => .ok standard

def fieldsOf (kind : String) : Value → Field.Checked (Fields Value)
  | .object fields => .ok fields
  | _ => Field.fail (.notRecord kind)

def nullable {α : Type} (read : Value → Field.Checked α) : Value → Field.Checked (Option α)
  | .null => .ok none
  | v => (read v).map some

/-- The elements of a list, each at its index; the first argument is the index of the first one. -/
def elements {α : Type} (read : Value → Field.Checked α) : Nat → List Value → Field.Checked (List α)
  | _, [] => .ok []
  | i, v :: vs =>
    (Field.both (Field.within (.index i) (read v)) (elements read (i + 1) vs)).map fun p => p.1 :: p.2

/-- A fixed sequence. -/
def sequence {α : Type} (read : Value → Field.Checked α) : Value → Field.Checked (List α)
  | .list items => elements read 0 items
  | _ => Field.fail .notTuple

def position (v : Value) : Field.Checked Position := do
  let fields ← fieldsOf "Position" v
  let (row, column) ← Field.both (required "row" integer fields) (required "column" integer fields)
  return ⟨row, column⟩

def span (v : Value) : Field.Checked Span := do
  let fields ← fieldsOf "ByteOffsetRange" v
  let (start, stop) ← Field.both (required "start" natural fields) (required "end" natural fields)
  Span.ofNats start stop

def edit (v : Value) : Field.Checked Edit := do
  let fields ← fieldsOf "TextEdit" v
  let (offset, length, replacement) ←
    Field.both (required "offset" natural fields)
      (Field.both (required "length" natural fields) (required "replacement" text fields))
  return ⟨offset, length, replacement⟩

def edits (v : Value) : Field.Checked (List Edit) := do
  let fields ← fieldsOf "TextEdits" v
  defaulted "edits" [] (sequence edit) fields

def severity : Value → Field.Checked Severity
  | .text s =>
    match Severity.ofWord? s with
    | some v => .ok v
    | none => Field.fail (.notOneOf (Severity.all.map Severity.word))
  | _ => Field.fail (.notOneOf (Severity.all.map Severity.word))

def diagnostic (v : Value) : Field.Checked Diagnostic := do
  let fields ← fieldsOf "Diagnostic" v
  let (range, message, severity) ←
    Field.both (required "range" span fields)
      (Field.both (required "message" text fields) (defaulted "severity" .warning severity fields))
  return ⟨range, message, severity⟩

/-- A text with at least one character. -/
def filledText (v : Value) : Field.Checked String :=
  match text v with
  | .ok s => if s = "" then Field.fail .emptyText else .ok s
  | .error ps => .error ps

def className (v : Value) : Field.Checked ClassName := do
  let fields ← fieldsOf "ClassName" v
  let (space, name) ←
    Field.both (defaulted "namespace" "" text fields) (required "name" filledText fields)
  return ⟨space, name⟩

def location (v : Value) : Field.Checked Location := do
  let fields ← fieldsOf "DocumentUri" v
  let (scheme, path) ← Field.both (required "scheme" text fields) (required "path" text fields)
  return ⟨scheme, path⟩

def sourceUnit (v : Value) : Field.Checked SourceUnit := do
  let fields ← fieldsOf "SourceUnit" v
  let (content, location, language) ←
    Field.both (required "text" text fields)
      (Field.both (defaulted "uri" none (nullable location) fields)
        (defaulted "language" SourceUnit.defaultLanguage text fields))
  return ⟨content, location, language⟩

/-- A source as it is sent in a request: where it lives is a URI or a bare path. -/
structure SourceRequest where
  text : String
  uri : Option String
  language : Language
  deriving DecidableEq, Repr, Inhabited

def language (v : Value) : Field.Checked Language :=
  match text v with
  | .error ps => .error ps
  | .ok s =>
    match Language.ofName s with
    | .ok l => .ok l
    | .error r => Field.fail (.refused r.message)

def sourceRequestFields (fields : Fields Value) : Field.Checked SourceRequest := do
  let (content, uri, language) ←
    Field.both (required "text" text fields)
      (Field.both (defaulted "uri" none (nullable text) fields)
        (defaulted "language" .php language fields))
  return ⟨content, uri, language⟩

def sourceRequest (v : Value) : Field.Checked SourceRequest := do
  let fields ← fieldsOf "SourceRequest" v
  sourceRequestFields fields

/-- The location that a text names; the empty text names none. -/
def locationOf (uri : Option String) : Except Failure (Option Location) :=
  match uri with
  | none => .ok none
  | some s =>
    if s = "" then .ok none
    else
      match Location.parse s with
      | .ok l => .ok (some l)
      | .error r => .error (.location r)

def SourceRequest.toUnit (r : SourceRequest) : Except Failure SourceUnit :=
  (locationOf r.uri).map fun l => ⟨r.text, l, r.language.name⟩

def ofNat (n : Nat) : Value :=
  .int n

def ofPosition (p : Position) : Value :=
  .object [("row", .int p.row), ("column", .int p.column)]

def ofSpan (s : Span) : Value :=
  .object [("start", ofNat s.start), ("end", ofNat s.stop)]

def ofEdit (e : Edit) : Value :=
  .object [("offset", ofNat e.offset), ("length", ofNat e.length), ("replacement", .text e.replacement)]

def ofEdits (es : List Edit) : Value :=
  .object [("edits", .list (es.map ofEdit))]

def ofDiagnostic (d : Diagnostic) : Value :=
  .object [("range", ofSpan d.range), ("message", .text d.message), ("severity", .text d.severity.word)]

def ofClassName (c : ClassName) : Value :=
  .object [("namespace", .text c.space), ("name", .text c.name)]

def ofLocation (l : Location) : Value :=
  .object [("scheme", .text l.scheme), ("path", .text l.path)]

def ofSourceUnit (u : SourceUnit) : Value :=
  .object
    [("text", .text u.text), ("uri", (u.location.map ofLocation).getD .null),
      ("language", .text u.language)]

def ofSourceRequest (r : SourceRequest) : Value :=
  .object
    [("text", .text r.text), ("uri", (r.uri.map Value.text).getD .null),
      ("language", .text r.language.name)]

def ofStep : Field.Step → Value
  | .key name => .text name
  | .index i => ofNat i

def ofProblem (p : Field.Problem) : Value :=
  .object
    [("type", .text p.fault.kind), ("loc", .list (p.place.map ofStep)),
      ("msg", .text p.fault.message)]

end Namesake.Schema
