import Mathlib
import Namesake.Host.Http
import Namesake.Host.Tools
import Namesake.Proofs.Action
import Namesake.Proofs.Agreement
import Namesake.Proofs.Verdict

/-! What hosts answer about a text that is sent to them. A request and a tool make a source from the text and the
location that comes with it, and ask for its edits or its findings; all they add is the form of the answer. So they
answer alike, and they end without an answer for the same texts: where a location cannot be read, or names a file
whose true path cannot be told. -/

namespace Namesake.Host

open Schema Syntax

/-! ### Sources that are sent -/

def proposed (r : Reconciler) (v : Vantage) (text : String) (uri : Option String) (language : String) :
    Except Failure (List Edit) :=
  (locationOf uri).bind fun l => r.reconcile v ⟨text, l, language⟩

/-- The findings about a text that is sent with a location, and the notes of the search. -/
def found (r : Reconciler) (v : Vantage) (text : String) (uri : Option String) (language : String) :
    Except Failure (List Diagnostic × List Note) :=
  (locationOf uri).bind fun l => r.inspect v ⟨text, l, language⟩

/-- Why nothing can be told about a text that is sent with the location `uri` to a host for the project at
`root`: the location cannot be read, or it is a file whose true path cannot be told. -/
inductive Obstacle (v : Vantage) (root : Path) (uri : Option String) (e : Failure) : Prop
  | unreadable (h : locationOf uri = .error e)
  | untraceable {path : String} (hfile : locationOf uri = .ok (some (Location.ofFile path)))
      (h : v.resolve (root.join (Path.ofString path)) = .error e)

section

variable {v : Vantage} {root : Path} {rules : List Rule} {parse : String → Tree} {text language : String}
  {uri : Option String} {e : Failure}

theorem compute_of_untraceable {path : String} (h : v.resolve (root.join (Path.ofString path)) = .error e) :
    (Reconciler.ofResolver (.autoload root rules) parse).compute v
      ⟨text, some (Location.ofFile path), language⟩ = .error e := by
  have hfile : Reconciler.filePath ⟨text, some (Location.ofFile path), language⟩ = .ok path :=
    Reconciler.filePath_eq_ok_iff.mpr rfl
  have hbest : (Reconciler.ofResolver (.autoload root rules) parse).best v path = .error e := by
    show Resolver.best v (.autoload root rules) path = .error e
    rw [Resolver.best, Resolver.candidates, h]
    rfl
  simp only [Reconciler.compute, hfile, hbest]

theorem locationOf_eq_error (h : locationOf uri = .error e) : ∃ refusal, e = .location refusal := by
  unfold locationOf at h
  cases uri with
  | none => cases h
  | some s =>
      dsimp only at h
      split_ifs at h
      cases hparse : Location.parse s with
      | ok l =>
          rw [hparse] at h
          cases h
      | error refusal =>
          rw [hparse] at h
          cases h
          exact ⟨refusal, rfl⟩

/-- What an obstacle may be: a location that is refused, a character that no path may hold, or a circle of links. -/
theorem Obstacle.kinds (h : Obstacle v root uri e) :
    (∃ refusal, e = .location refusal) ∨ e = .nulInPath ∨ ∃ loop, e = .linkLoop loop := by
  cases h with
  | unreadable h => exact .inl (locationOf_eq_error h)
  | untraceable hfile h =>
      unfold Vantage.resolve at h
      split_ifs at h
      · cases h
        exact .inr (.inl rfl)
      · split at h
        · cases h
        · cases h
          exact .inr (.inr ⟨_, rfl⟩)

/-- An obstacle keeps the edits and the findings from being told. -/
theorem Obstacle.ends (h : Obstacle v root uri e) (text language : String) :
    proposed (.ofResolver (.autoload root rules) parse) v text uri language = .error e ∧
      found (.ofResolver (.autoload root rules) parse) v text uri language = .error e := by
  cases h with
  | unreadable h =>
      rw [proposed, found, h]
      exact ⟨rfl, rfl⟩
  | untraceable hfile h =>
      rw [proposed, found, hfile]
      dsimp only [Except.bind]
      rw [Reconciler.reconcile, Reconciler.inspect, compute_of_untraceable h]
      exact ⟨rfl, rfl⟩

/-- Where the true path of a file can be told, its class name is looked up; if there is one, then what has to change
can be applied and described. -/
theorem compute_of_traceable {u : SourceUnit} (ht : (parse u.text).WellFormed u.text.toList)
    (h : ∀ path, u.location = some (Location.ofFile path) → ∃ q, v.resolve (root.join (Path.ofString path)) = .ok q) :
    let r := Reconciler.ofResolver (.autoload root rules) parse
    (∃ why, r.compute v u = .ok (.error why)) ∨
    ∃ k ds out, r.compute v u = .ok (.ok k) ∧ k.diagnostics = .ok ds ∧ Edit.applyAll k.edits u.text = .ok out := by
  intro r
  cases hpath : Reconciler.filePath u with
  | error why => exact .inl ⟨why, by rw [Reconciler.compute, hpath]⟩
  | ok path =>
      obtain ⟨q, hq⟩ := h path (Reconciler.filePath_eq_ok_iff.mp hpath)
      have hbest : r.best v path = (Resolver.autoload root rules).best v path := rfl
      rw [Resolver.best, Resolver.candidates, hq] at hbest
      dsimp only [Except.map] at hbest
      cases hnames : Resolver.derived rules q.names with
      | nil =>
          rw [hnames] at hbest
          refine .inl ⟨.noName path ((Resolver.autoload root rules).absent path), ?_⟩
          simp only [Reconciler.compute, hpath, hbest]
      | cons c rest =>
          rw [hnames] at hbest
          obtain ⟨k, ds, hk, hds, -⟩ := Corrections.exists_diagnostics ht c
          obtain ⟨k', out, hk', -, -, -, happly, -⟩ := Corrections.exists_patch ht c
          obtain rfl : k = k' := Except.ok.inj (hk.symm.trans hk')
          have htree : Corrections.ofTree (r.parse u.text) c = .ok k := hk
          exact .inr ⟨k, ds, out, by simp only [Reconciler.compute, hpath, hbest, htree], hds, happly⟩

/-- Without an obstacle there is no class name and nothing is found, or there are edits that can be applied and
findings. -/
theorem told_of_clear (ht : (parse text).WellFormed text.toList) (h : ∀ e, ¬ Obstacle v root uri e)
    (language : String) :
    let r := Reconciler.ofResolver (.autoload root rules) parse
    (∃ why notes, proposed r v text uri language = .error (.unresolved why) ∧
      found r v text uri language = .ok ([], notes)) ∨
    ∃ edits ds out, proposed r v text uri language = .ok edits ∧ found r v text uri language = .ok (ds, []) ∧
      Edit.applyAll edits text = .ok out := by
  intro r
  cases huri : locationOf uri with
  | error e => exact absurd (.unreadable huri) (h e)
  | ok location =>
      have htraceable : ∀ path, location = some (Location.ofFile path) →
          ∃ q, v.resolve (root.join (Path.ofString path)) = .ok q := by
        rintro path rfl
        cases hresolve : v.resolve (root.join (Path.ofString path)) with
        | ok q => exact ⟨q, rfl⟩
        | error e => exact absurd (.untraceable huri hresolve) (h e)
      rw [proposed, found, huri]
      dsimp only [Except.bind]
      rcases compute_of_traceable (u := ⟨text, location, language⟩) ht htraceable with
        ⟨why, hcompute⟩ | ⟨k, ds, out, hcompute, hds, happly⟩
      · refine .inl ⟨why, [Reconciler.silence ⟨text, location, language⟩ why], ?_, ?_⟩
        · rw [Reconciler.reconcile, hcompute]
        · rw [Reconciler.inspect, hcompute]
      · refine .inr ⟨k.edits, ds, out, ?_, ?_, happly⟩
        · rw [Reconciler.reconcile, hcompute]
        · rw [Reconciler.inspect, hcompute]
          simp only [hds]

end

/-! ### The form of the answers -/

namespace Http

/-- The response to a request for the edits of a text. -/
def respond (text : String) : Except Failure (List Edit) → Except Failure Response
  | .ok edits =>
    match Edit.applyAll edits text with
    | .ok patched => .ok ⟨200, .object [("edits", .list (edits.map ofEdit)), ("text", .text patched)]⟩
    | .error e => .error (.edits e)
  | .error (.unresolved (.noName path cause)) => .ok (refusal 422 (.text (Unresolved.noName path cause).message))
  | .error (.unresolved why) => .ok (refusal 400 (.text why.message))
  | .error e => .error e

theorem exec_reconcile (r : Reconciler) (q : SourceRequest) (s : Scene) :
    (reconcile r q).exec s = (respond q.text (proposed r ⟨s.disk, s.cwd⟩ q.text q.uri q.language.name), s) := by
  rw [reconcile, proposed, SourceRequest.toUnit, Act.exec_bind, Act.exec_demand]
  cases huri : locationOf q.uri with
  | error e =>
      obtain ⟨refusal, rfl⟩ := locationOf_eq_error huri
      rfl
  | ok l =>
      simp only [Except.map, Except.bind, Act.exec_bind, Act.exec_vantage]
      cases r.reconcile ⟨s.disk, s.cwd⟩ ⟨q.text, l, q.language.name⟩ with
      | ok edits =>
          dsimp only [respond]
          cases Edit.applyAll edits q.text <;> rfl
      | error e =>
          cases e with
          | unresolved why => cases why <;> rfl
          | _ => rfl

/-- A request for edits succeeds if there are edits that can be applied. -/
theorem exists_respond_iff {text : String} {outcome : Except Failure (List Edit)} :
    (∃ response, respond text outcome = .ok response ∧ response.status = 200) ↔
      ∃ edits patched, outcome = .ok edits ∧ Edit.applyAll edits text = .ok patched := by
  cases outcome with
  | ok edits =>
      dsimp only [respond]
      cases happly : Edit.applyAll edits text with
      | ok patched => exact iff_of_true ⟨_, rfl, rfl⟩ ⟨edits, patched, rfl, happly⟩
      | error e =>
          refine iff_of_false (by rintro ⟨_, ⟨⟩, -⟩) ?_
          rintro ⟨_, patched, ⟨⟩, hpatched⟩
          cases happly.symm.trans hpatched
  | error e =>
      refine iff_of_false ?_ (by rintro ⟨_, _, ⟨⟩, -⟩)
      rintro ⟨response, hresponse, hstatus⟩
      cases e with
      | unresolved why => cases why <;> cases hresponse <;> cases hstatus
      | _ => cases hresponse

theorem exec_inspect (r : Reconciler) (q : SourceRequest) (s : Scene) :
    (inspect r q).exec s = match found r ⟨s.disk, s.cwd⟩ q.text q.uri q.language.name with
      | .ok (ds, notes) => (.ok ⟨200, .object [("diagnostics", .list (ds.map ofDiagnostic))]⟩,
          { s with notes := s.notes ++ notes })
      | .error e => (.error e, s) := by
  rw [inspect, found, SourceRequest.toUnit, Act.exec_bind, Act.exec_demand]
  cases locationOf q.uri with
  | error e => rfl
  | ok l =>
      simp only [Except.map, Except.bind, Act.exec_bind, Act.exec_vantage, Act.exec_demand]
      cases r.inspect ⟨s.disk, s.cwd⟩ ⟨q.text, l, q.language.name⟩ with
      | error e => rfl
      | ok found => simp only [Act.exec_note, Act.exec_pure]

/-- A body that is read as the source `q`. -/
def Sends (body : Option String) (q : SourceRequest) : Prop :=
  ∃ v, bodyValue body = .ok v ∧ source v = .ok q

def post (need : Act Reconciler) (s : Scene) (url : String) (body : Option String) : Except Failure Response :=
  ((answer need ⟨"POST", url, body⟩).exec s).1

section

variable {need : Act Reconciler} {r : Reconciler} {body : Option String} {q : SourceRequest} {s s' : Scene}

theorem exec_answerSource (hneed : need.exec s = (.ok r, s')) (hbody : Sends body q)
    (give : Reconciler → SourceRequest → Act Response) :
    (answerSource need body give).exec s = (give r q).exec s' := by
  obtain ⟨v, hvalue, hsource⟩ := hbody
  rw [answerSource, hvalue]
  dsimp only [Field.within]
  rw [Act.exec_bind_of_ok hneed, hsource]

theorem post_inspect (hneed : need.exec s = (.ok r, s')) (hbody : Sends body q) :
    post need s "/inspect" body = ((inspect r q).exec s').1 := by
  have hroute : routeOf "/inspect" = some .inspect := by decide +kernel
  rw [post, answer, hroute]
  dsimp only
  rw [if_neg (fun h => h rfl), exec_answerSource hneed hbody]

theorem post_reconcile (hneed : need.exec s = (.ok r, s')) (hbody : Sends body q) :
    post need s "/reconcile" body = ((reconcile r q).exec s').1 := by
  have hroute : routeOf "/reconcile" = some .reconcile := by decide +kernel
  rw [post, answer, hroute]
  dsimp only
  rw [if_neg (fun h => h rfl), exec_answerSource hneed hbody]

end

end Http

namespace Tools

/-- The answer to a call for the edits of a text. -/
def respond : Except Failure (List Edit) → Except Failure Json.Value
  | .ok edits => .ok (.list (edits.map ofEdit))
  | .error e => if isAnswer e then .ok (errorText e) else .error e

/-- A call for edits gives a list if there are edits. -/
theorem exists_respond_iff {outcome : Except Failure (List Edit)} :
    (∃ edits, respond outcome = .ok (.list edits)) ↔ ∃ edits, outcome = .ok edits := by
  cases outcome with
  | ok edits => exact iff_of_true ⟨_, rfl⟩ ⟨edits, rfl⟩
  | error e =>
      refine iff_of_false ?_ (by rintro ⟨_, ⟨⟩⟩)
      rintro ⟨edits, hedits⟩
      rw [respond] at hedits
      split_ifs at hedits
      cases hedits

theorem exec_reconcile (r : Reconciler) (text : String) (path : Option String) (s : Scene) :
    (reconcile r text path).exec s =
      (respond (proposed r ⟨s.disk, s.cwd⟩ text path SourceUnit.defaultLanguage), s) := by
  rw [reconcile, proposed, unit, Act.exec_bind, Act.exec_demand]
  cases huri : locationOf path with
  | error e =>
      obtain ⟨refusal, rfl⟩ := locationOf_eq_error huri
      rfl
  | ok l =>
      simp only [Except.map, Except.bind, Act.exec_bind, Act.exec_vantage, SourceUnit.ofText]
      cases r.reconcile ⟨s.disk, s.cwd⟩ ⟨text, l, SourceUnit.defaultLanguage⟩ with
      | ok edits => rfl
      | error e =>
          dsimp only [respond]
          cases isAnswer e <;> rfl

theorem exec_inspect (r : Reconciler) (text : String) (path : Option String) (s : Scene) :
    (inspect r text path).exec s = match found r ⟨s.disk, s.cwd⟩ text path SourceUnit.defaultLanguage with
      | .ok (ds, notes) => (.ok (.list (ds.map ofDiagnostic)), { s with notes := s.notes ++ notes })
      | .error e => (.error e, s) := by
  rw [inspect, found, unit, Act.exec_bind, Act.exec_demand]
  cases locationOf path with
  | error e => rfl
  | ok l =>
      simp only [Except.map, Except.bind, Act.exec_bind, Act.exec_vantage, Act.exec_demand, SourceUnit.ofText]
      cases r.inspect ⟨s.disk, s.cwd⟩ ⟨text, l, SourceUnit.defaultLanguage⟩ with
      | error e => rfl
      | ok found => simp only [Act.exec_note, Act.exec_pure]

end Tools

section

variable {root : Path} {rules : List Rule} {parse : String → Tree} {need : Act Reconciler} {s s' : Scene}
  {uri : Option String}

/-- Where there is an obstacle, requests and calls fail with it. -/
theorem Obstacle.fails {e : Failure} (h : Obstacle ⟨s'.disk, s'.cwd⟩ root uri e)
    (hneed : need.exec s = (.ok (.ofResolver (.autoload root rules) parse), s')) :
    let r := Reconciler.ofResolver (.autoload root rules) parse
    (∀ body q, Http.Sends body q → q.uri = uri →
      Http.post need s "/inspect" body = .error e ∧ Http.post need s "/reconcile" body = .error e) ∧
    ∀ text, ((Tools.inspect r text uri).exec s').1 = .error e ∧ ((Tools.reconcile r text uri).exec s').1 = .error e := by
  intro r
  have hhttp (text : String) : Http.respond text (.error e) = .error e := by
    rcases h.kinds with ⟨refusal, rfl⟩ | rfl | ⟨loop, rfl⟩ <;> rfl
  have htools : Tools.respond (.error e) = .error e := by
    rcases h.kinds with ⟨refusal, rfl⟩ | rfl | ⟨loop, rfl⟩ <;> rfl
  refine ⟨?_, fun text => ?_⟩
  · rintro body q hbody rfl
    obtain ⟨hproposed, hfound⟩ := @Obstacle.ends _ _ rules parse _ _ h q.text q.language.name
    rw [Http.post_inspect hneed hbody, Http.post_reconcile hneed hbody, Http.exec_inspect, Http.exec_reconcile,
      hproposed, hfound, hhttp]
    exact ⟨rfl, rfl⟩
  · obtain ⟨hproposed, hfound⟩ := @Obstacle.ends _ _ rules parse _ _ h text SourceUnit.defaultLanguage
    rw [Tools.exec_inspect, Tools.exec_reconcile, hproposed, hfound, htools]
    exact ⟨rfl, rfl⟩

/-- For every text whose tree is well formed, and every location: where there is no obstacle all four hosts answer,
with a status of 200 to a request for findings, with one of 200, 400 or 422 to a request for edits, and with a list or
the text of an error where a tool is called; where there is one all four fail with it. -/
theorem answers_unless_obstacle {text : String} (ht : (parse text).WellFormed text.toList)
    (hneed : need.exec s = (.ok (.ofResolver (.autoload root rules) parse), s')) (uri : Option String) :
    let r := Reconciler.ofResolver (.autoload root rules) parse
    let v : Vantage := ⟨s'.disk, s'.cwd⟩
    ((∀ e, ¬ Obstacle v root uri e) →
      (∀ body q, Http.Sends body q → q.text = text → q.uri = uri →
        (∃ ds, Http.post need s "/inspect" body = .ok ⟨200, .object [("diagnostics", .list ds)]⟩) ∧
        ∃ response, Http.post need s "/reconcile" body = .ok response ∧ response.status ∈ [200, 400, 422]) ∧
      (∃ ds, ((Tools.inspect r text uri).exec s').1 = .ok (.list ds)) ∧
      ∃ answer, ((Tools.reconcile r text uri).exec s').1 = .ok answer ∧
        ((∃ edits : List Edit, answer = .list (edits.map ofEdit)) ∨ ∃ message, answer = .text ("Error: " ++ message))) ∧
    ∀ e, Obstacle v root uri e →
      (∀ body q, Http.Sends body q → q.uri = uri →
        Http.post need s "/inspect" body = .error e ∧ Http.post need s "/reconcile" body = .error e) ∧
      ((Tools.inspect r text uri).exec s').1 = .error e ∧ ((Tools.reconcile r text uri).exec s').1 = .error e := by
  intro r v
  refine ⟨fun hclear => ⟨?_, ?_, ?_⟩, fun e he => ?_⟩
  · rintro body q hbody rfl rfl
    rw [Http.post_inspect hneed hbody, Http.post_reconcile hneed hbody, Http.exec_inspect, Http.exec_reconcile]
    rcases told_of_clear ht hclear q.language.name with
      ⟨why, notes, hproposed, hfound⟩ | ⟨edits, ds, out, hproposed, hfound, happly⟩
    · rw [hproposed, hfound]
      refine ⟨⟨_, rfl⟩, ?_⟩
      cases why with
      | noName path cause => exact ⟨_, rfl, by simp [Http.refusal]⟩
      | _ => exact ⟨_, rfl, by simp [Http.refusal]⟩
    · rw [hproposed, hfound, Http.respond, happly]
      exact ⟨⟨_, rfl⟩, _, rfl, by simp⟩
  · rw [Tools.exec_inspect]
    rcases told_of_clear ht hclear SourceUnit.defaultLanguage with ⟨why, notes, -, hfound⟩ | ⟨edits, ds, out, -, hfound, -⟩
    · rw [hfound]
      exact ⟨_, rfl⟩
    · rw [hfound]
      exact ⟨_, rfl⟩
  · rw [Tools.exec_reconcile]
    rcases told_of_clear ht hclear SourceUnit.defaultLanguage with
      ⟨why, notes, hproposed, -⟩ | ⟨edits, ds, out, hproposed, -, -⟩
    · rw [hproposed]
      exact ⟨_, rfl, .inr ⟨_, rfl⟩⟩
    · rw [hproposed]
      exact ⟨_, rfl, .inl ⟨_, rfl⟩⟩
  · obtain ⟨hrequests, hcalls⟩ := he.fails hneed
    exact ⟨hrequests, hcalls text⟩

/-- A location that is no URI is an obstacle, another one is not. -/
theorem answers_unless_obstacle_brackets :
    let text := "<?php class A \x7b\x7d"
    let root := Path.ofPlace ["p"]
    let r := Reconciler.ofResolver (.autoload root [⟨"Acme", ["p", "src"]⟩]) Php.parse
    let s : Scene := ⟨.empty, ["p"], [], [], [], none⟩
    (Php.parse text).WellFormed text.toList ∧ (pure r : Act Reconciler).exec s = (.ok r, s) ∧
    ((Tools.inspect r text (some "http://[")).exec s).1 = .error (.location .brackets) ∧
    ∃ ds, ((Tools.inspect r text (some "src/B.php")).exec s).1 = .ok (.list ds) := by
  intro text root r s
  have ht : (Php.parse text).WellFormed text.toList := by decide +kernel
  have hneed : (pure r : Act Reconciler).exec s = (.ok r, s) := rfl
  have hobstacle : Obstacle ⟨s.disk, s.cwd⟩ root (some "http://[") (.location .brackets) := .unreadable (by cbv)
  have hlocation : locationOf (some "src/B.php") = .ok (some (Location.ofFile "src/B.php")) := by cbv
  have hresolve : Vantage.resolve ⟨s.disk, s.cwd⟩ (root.join (Path.ofString "src/B.php")) =
      .ok (Path.ofPlace ["p", "src", "B.php"]) := by cbv
  have hclear : ∀ e, ¬ Obstacle ⟨s.disk, s.cwd⟩ root (some "src/B.php") e := by
    rintro e (h | ⟨hfile, h⟩)
    · rw [hlocation] at h
      cases h
    · rw [hlocation] at hfile
      cases hfile
      rw [hresolve] at h
      cases h
  exact ⟨ht, hneed, ((answers_unless_obstacle ht hneed _).2 _ hobstacle).2.1,
    ((answers_unless_obstacle ht hneed _).1 hclear).2.1⟩

/-- No host answers about a location with a bracket that is not closed, or a file whose path holds the character that
ends texts in system calls. -/
theorem hosts_fail :
    let r := Reconciler.ofResolver (.autoload (Path.ofPlace ["p"]) [⟨"Acme", ["p", "src"]⟩]) Php.parse
    let s : Scene := ⟨.empty, ["p"], [], [], [], none⟩
    let body := some "\x7b\"text\": \"<?php\", \"uri\": \"http://[\"\x7d"
    Http.Sends body ⟨"<?php", some "http://[", .php⟩ ∧
    Http.post (pure r) s "/inspect" body = .error (.location .brackets) ∧
    Http.post (pure r) s "/reconcile" body = .error (.location .brackets) ∧
    ((Tools.inspect r "<?php" (some "http://[")).exec s).1 = .error (.location .brackets) ∧
    ((Tools.reconcile r "<?php" (some "http://[")).exec s).1 = .error (.location .brackets) ∧
    ((Tools.reconcile r "<?php" (some "src/\x00.php")).exec s).1 = .error .nulInPath := by
  intro r s body
  have hbody : Http.Sends body ⟨"<?php", some "http://[", .php⟩ :=
    ⟨some (.object [("text", .text "<?php"), ("uri", .text "http://[")]), by cbv, by cbv⟩
  have hneed : (pure r : Act Reconciler).exec s = (.ok r, s) := rfl
  have hbrackets : Obstacle ⟨s.disk, s.cwd⟩ (Path.ofPlace ["p"]) (some "http://[") (.location .brackets) :=
    .unreadable (by cbv)
  have hfile : locationOf (some "src/\x00.php") = .ok (some (Location.ofFile "src/\x00.php")) := by cbv
  have hnul : Obstacle ⟨s.disk, s.cwd⟩ (Path.ofPlace ["p"]) (some "src/\x00.php") .nulInPath :=
    .untraceable hfile (by cbv)
  obtain ⟨hrequests, hcalls⟩ := hbrackets.fails hneed
  obtain ⟨hinspect, hreconcile⟩ := hrequests body _ hbody rfl
  exact ⟨hbody, hinspect, hreconcile, (hcalls _).1, (hcalls _).2, ((hnul.fails hneed).2 _).2⟩

end

end Namesake.Host
