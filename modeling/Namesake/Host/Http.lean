import Namesake.Host.Act
import Namesake.Json.Reader
import Namesake.Reconciler

/-!
Requests over HTTP: sources are sent as JSON to be reconciled or inspected, and a few routes tell that
the service is there. All requests share one reconciler, which is made when the first one needs it.
-/

namespace Namesake.Host.Http

open Schema Json Syntax Text

/-- A request; its URL is a path, perhaps with a query. -/
structure Request where
  method : String
  url : String
  body : Option String
  deriving DecidableEq, Repr, Inhabited

/-- A response. -/
structure Response where
  status : Nat
  body : Value
  deriving Repr, Inhabited

/-- A response with some detail about what is wrong. -/
def refusal (status : Nat) (detail : Value) : Response :=
  ⟨status, .object [("detail", detail)]⟩

def unprocessable (problems : List Field.Problem) : Response :=
  refusal 422 (.list (problems.map ofProblem))

/-- What a route does. -/
inductive Route where
  | root
  | health
  | reconcile
  | inspect
  deriving DecidableEq, Repr, Inhabited

/-- The path of a request without its query, percent-escapes undone. -/
def pathOf (url : String) : String :=
  Location.unescape (url.toList.takeWhile fun c => c != '?' && c != '#')

def route? (path : String) : Option Route :=
  if path = "/" then some .root
  else if path = "/health" ∨ path = "/healthz/live" then some .health
  else if path = "/reconcile" then some .reconcile
  else if path = "/inspect" then some .inspect
  else none

/-- The route of a request; a path that ends with slashes is also tried without them. -/
def routeOf (url : String) : Option Route :=
  let path := pathOf url
  match route? path with
  | some r => some r
  | none => route? (String.ofList (dropWhileEnd (· == '/') path.toList))

def Route.method : Route → String
  | .root => "GET"
  | .health => "GET"
  | .reconcile => "POST"
  | .inspect => "POST"

def description : Value :=
  .object
    [("meta",
        .object
          [("title", .text "fqn-reconcile API"),
            ("description",
              .text "Check and fix PHP namespaces and class names against their file paths."),
            ("version", .text "0.1.0")]),
      ("links",
        .object
          [("self", .text "/"), ("reconcile", .text "/reconcile"), ("inspect", .text "/inspect"),
            ("health", .text "/health"), ("openapi", .text "/openapi.json"), ("docs", .text "/docs")])]

def alive : Value :=
  .object [("status", .text "ok")]

/-- The text of a body without a mark of the byte order in front. -/
def unmarked (s : String) : String :=
  match s.toList with
  | '\uFEFF' :: rest => String.ofList rest
  | _ => s

/-- The value of a body; none if there is no body or it is null. -/
def bodyValue (body : Option String) : Field.Checked (Option Value) :=
  match body with
  | none => .ok none
  | some s =>
    if s = "" then .ok none
    else
      match Json.parse (unmarked s) with
      | .ok .null => .ok none
      | .ok v => .ok (some v)
      | .error e => Field.within (.index e.position) (Field.fail .notJson)

def source (v : Option Value) : Field.Checked SourceRequest :=
  match v with
  | none => Field.fail .missing
  | some (.object fields) => sourceRequestFields fields
  | some _ => Field.fail .notObject

def reconcile (r : Reconciler) (q : SourceRequest) : Act Response := do
  let u ← Act.demand q.toUnit
  match r.reconcile (← Act.vantage) u with
  | .ok edits =>
    match Edit.applyAll edits u.text with
    | .ok patched =>
      return ⟨200, .object [("edits", .list (edits.map ofEdit)), ("text", .text patched)]⟩
    | .error e => throw (.edits e)
  -- a path without a class name is understood and cannot be done; a source without a path is malformed
  | .error (.unresolved (.noName path cause)) =>
    return refusal 422 (.text (Unresolved.noName path cause).message)
  | .error (.unresolved why) => return refusal 400 (.text why.message)
  | .error e => throw e

def inspect (r : Reconciler) (q : SourceRequest) : Act Response := do
  let u ← Act.demand q.toUnit
  let (ds, notes) ← Act.demand (r.inspect (← Act.vantage) u)
  Act.note notes
  return ⟨200, .object [("diagnostics", .list (ds.map ofDiagnostic))]⟩

/-- Answers with the source in a body. The reconciler is made after the body is read as JSON, and before
its fields are looked at. -/
def answerSource (need : Act Reconciler) (body : Option String)
    (give : Reconciler → SourceRequest → Act Response) : Act Response :=
  match Field.within (.key "body") (bodyValue body) with
  | .error ps => return unprocessable ps
  | .ok v => do
    let r ← need
    match Field.within (.key "body") (source v) with
    | .error ps => return unprocessable ps
    | .ok q => give r q

/-- Answers a request with the reconciler that `need` gives. -/
def answer (need : Act Reconciler) (q : Request) : Act Response :=
  match routeOf q.url with
  | none => return refusal 404 (.text "Not Found")
  | some route =>
    if q.method ≠ route.method then return refusal 405 (.text "Method Not Allowed")
    else
      match route with
      | .root => return ⟨200, description⟩
      | .health => return ⟨200, alive⟩
      | .reconcile => answerSource need q.body reconcile
      | .inspect => answerSource need q.body inspect

/-- The resolver of the project that the surroundings name. -/
def projectResolver : Act Resolver := do
  let scene ← get
  let v ← Act.vantage
  let s ← Act.demand (Settings.make v scene.environment none [] [])
  Act.perform (Resolver.ofManifest v s.root)

/-- The resolver that requests share; the first request that needs it makes it. -/
def sharedResolver : Act Resolver := do
  match (← get).shared with
  | some r => return r
  | none =>
    let r ← projectResolver
    modify fun s => { s with shared := some r }
    return r

def answerShared (parse : String → Tree) (q : Request) : Act Response :=
  answer ((fun r => Reconciler.ofResolver r parse) <$> sharedResolver) q

/-- Ends the service: the next request that needs a reconciler makes a new one. -/
def shutDown : Act Unit :=
  modify fun s => { s with shared := none }

end Namesake.Host.Http
