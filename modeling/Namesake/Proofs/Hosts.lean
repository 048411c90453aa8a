import Namesake.Proofs.Answers
import Namesake.Proofs.FileUri
import Namesake.Proofs.FixRuns
import Namesake.Proofs.Straight

/-! The hosts agree on files. What is done to a file on the disk, and what is answered about its text when the text is
sent with a location that is read as the file, comes from one proposal and one verdict on the true path and the text.
So fixing the file succeeds exactly when its edits are answered, it applies the same edits, and it leaves the text
that is answered; and a check finds what is answered as findings. -/

namespace Namesake.Host

open Schema Syntax Text

variable {v : Vantage} {k : Path} {resolver : Resolver} {root : Path} {rules : List Rule} {parse : String → Tree}
  {text uri : String}

/-! ### Texts with the location of a file -/

theorem proposed_of_location {language : String} (hk : k.anchor = .root ∧ ∀ n ∈ k.names, Path.IsEntry n)
    (hself : v.resolve k = .ok k) (huri : locationOf (some uri) = .ok (some (Location.ofFile k.render))) :
    proposed (.ofResolver resolver parse) v text (some uri) language =
      Reconciler.proposal resolver parse k text := by
  rw [proposed, huri]
  exact Reconciler.reconcile_of_resolve hk hself

theorem found_of_location (hk : k.anchor = .root ∧ ∀ n ∈ k.names, Path.IsEntry n)
    (hself : v.resolve k = .ok k) (huri : locationOf (some uri) = .ok (some (Location.ofFile k.render))) :
    found (.ofResolver (.autoload root rules) parse) v text (some uri) Language.php.name =
      verdict parse rules k text := by
  rw [found, huri]
  exact Reconciler.inspect_of_resolve hk hself

theorem exists_verdict (ht : (parse text).WellFormed text.toList) (rules : List Rule) (k : Path) :
    ∃ ds notes, verdict parse rules k text = .ok (ds, notes) := by
  unfold verdict
  cases Resolver.derived rules k.names with
  | nil => exact ⟨_, _, rfl⟩
  | cons c rest =>
      obtain ⟨corrections, ds, hcorrections, hds, -⟩ := Corrections.exists_diagnostics ht c
      refine ⟨ds, [], ?_⟩
      simp only [hcorrections, hds]

theorem locationOf_of_parse {l : Location} (h : Location.parse uri = .ok l) (hne : uri ≠ "") :
    locationOf (some uri) = .ok (some l) := by
  rw [locationOf, if_neg hne, h]

/-! ### Files -/

/-- The hosts treat a file with the path `p` and the text `text` alike when the text is sent with the location `uri`.
The request finds the scene `s`, and `s'` once its reconciler `r` is there. -/
structure Alike (r : Reconciler) (need : Act Reconciler) (s s' : Scene) (p : Path) (text uri : String) : Prop where
  /-- The file can be fixed exactly when a request for its edits succeeds. -/
  request : ∀ body q, Http.Sends body q → q.text = text → q.uri = some uri →
    ((∃ f, Batch.fixFile r ⟨s'.disk, s'.cwd⟩ false p = .ok f) ↔
      ∃ response, Http.post need s "/reconcile" body = .ok response ∧ response.status = 200)
  /-- It can be fixed exactly when a call for its edits gives a list. -/
  call : (∃ f, Batch.fixFile r ⟨s'.disk, s'.cwd⟩ false p = .ok f) ↔
    ∃ edits, ((Tools.reconcile r text (some uri)).exec s').1 = .ok (.list edits)
  /-- The edits are the same, and the text that is answered is what the file holds then. -/
  same : ∀ f, Batch.fixFile r ⟨s'.disk, s'.cwd⟩ false p = .ok f →
    ((Tools.reconcile r text (some uri)).exec s').1 = .ok (.list (f.report.edits.map ofEdit)) ∧
    ∃ patched, Vantage.read ⟨f.disk, s'.cwd⟩ p = .ok (Utf8.encode patched) ∧
      ∀ body q, Http.Sends body q → q.text = text → q.uri = some uri → Http.post need s "/reconcile" body =
        .ok ⟨200, .object [("edits", .list (f.report.edits.map ofEdit)), ("text", .text patched)]⟩
  /-- A check finds what a request for findings answers. -/
  checked : ∃ report notes, Batch.checkFile r ⟨s'.disk, s'.cwd⟩ p = .ok (report, notes) ∧
    ∀ body q, Http.Sends body q → q.text = text → q.uri = some uri → Http.post need s "/inspect" body =
      .ok ⟨200, .object [("diagnostics", .list (report.findings.map fun x => ofDiagnostic x.diagnostic))]⟩

/-- A file that can be fixed by a proposal is fixed by it, and holds the patched text then. -/
theorem fixFile_of_proposal (hparse : ∀ text, (parse text).WellFormed text.toList) (hv : v.Proper) {p : Path}
    (hp : p.IsMet) (hself : v.resolve p = .ok p) (hread : v.read p = .ok (Utf8.encode text)) :
    (∃ cause, Reconciler.proposal resolver parse p text = .error (.unresolved (.noName p.render cause)) ∧
      Batch.fixFile (.ofResolver resolver parse) v false p = .error (.unresolved (.noName p.render cause))) ∨
    ∃ edits patched f, Reconciler.proposal resolver parse p text = .ok edits ∧
      Edit.applyAll edits text = .ok patched ∧ Batch.fixFile (.ofResolver resolver parse) v false p = .ok f ∧
      f.report.edits = edits ∧ Vantage.read ⟨f.disk, v.cwd⟩ p = .ok (Utf8.encode patched) := by
  obtain ⟨note, hfix⟩ := Batch.fixFile_eq hparse hv resolver false hp.names hread
  obtain ⟨hholds, -⟩ := hv.exists_holds hread
  obtain heq : p = Path.ofPlace (v.disk.placeOf v.cwd p) := Except.ok.inj (hself.symm.trans hholds.resolve)
  have hdraft : Batch.draft resolver parse p (Path.ofPlace (v.disk.placeOf v.cwd p)) (Utf8.encode text) =
      Reconciler.proposal resolver parse p text := by
    rw [← heq, Batch.draft, Utf8.decode?_encode, Language.resolve_of_source hp.source]
  rw [hdraft] at hfix
  rcases Reconciler.proposal_cases (hparse text) resolver p with
    ⟨cause, hproposal⟩ | ⟨edits, patched, hproposal, -, -, happly, hpatched⟩
  · rw [hproposal] at hfix
    exact .inl ⟨cause, hproposal, hfix⟩
  · rw [hproposal] at hfix
    dsimp only [Except.map] at hfix
    by_cases hempty : (edits.isEmpty || false) = true
    · rw [if_pos hempty] at hfix
      have hnil : edits = [] := by simpa using hempty
      have hsame : Utf8.encode patched = Utf8.encode text := by
        rw [hpatched, hnil]
        simp [Edit.sorted, Edit.weave]
      exact .inr ⟨edits, patched, _, hproposal, happly, hfix, rfl, hsame ▸ hread⟩
    · rw [if_neg hempty] at hfix
      have hwritten := Vantage.read_of_write (Vantage.write_of_holds hv.solid hv.named hholds (Utf8.encode patched))
      rw [hpatched] at hwritten
      exact .inr ⟨edits, patched, _, hproposal, happly, hfix, rfl, hpatched ▸ hwritten⟩

/-- A location that is read as the file makes the hosts treat the file alike. -/
theorem alike_of_location (hparse : ∀ text, (parse text).WellFormed text.toList) {need : Act Reconciler} {s s' : Scene}
    (hneed : need.exec s = (.ok (.ofResolver (.autoload root rules) parse), s')) {p : Path}
    (hv : Vantage.Proper ⟨s'.disk, s'.cwd⟩) (hp : p.IsMet) (hroot : p.anchor = .root ∧ ∀ n ∈ p.names, Path.IsEntry n)
    (hself : Vantage.resolve ⟨s'.disk, s'.cwd⟩ p = .ok p)
    (hread : Vantage.read ⟨s'.disk, s'.cwd⟩ p = .ok (Utf8.encode text))
    (huri : locationOf (some uri) = .ok (some (Location.ofFile p.render))) :
    Alike (.ofResolver (.autoload root rules) parse) need s s' p text uri := by
  have hproposed (language : String) : proposed (.ofResolver (.autoload root rules) parse) ⟨s'.disk, s'.cwd⟩ text
      (some uri) language = Reconciler.proposal (.autoload root rules) parse p text :=
    proposed_of_location hroot hself huri
  have hrequest : ∀ body q, Http.Sends body q → q.text = text → q.uri = some uri →
      Http.post need s "/reconcile" body = Http.respond text (Reconciler.proposal (.autoload root rules) parse p text) := by
    rintro body q hbody rfl hq
    rw [Http.post_reconcile hneed hbody, Http.exec_reconcile, hq, hproposed]
  have hcall : ((Tools.reconcile (.ofResolver (.autoload root rules) parse) text (some uri)).exec s').1 =
      Tools.respond (Reconciler.proposal (.autoload root rules) parse p text) := by
    rw [Tools.exec_reconcile, hproposed]
  have hfix := @fixFile_of_proposal _ (.autoload root rules) parse text hparse hv p hp hself hread
  refine ⟨fun body q hbody htext hq => ?_, ?_, fun f hf => ?_, ?_⟩
  · rw [hrequest body q hbody htext hq, Http.exists_respond_iff]
    rcases hfix with ⟨cause, hproposal, hfails⟩ | ⟨edits, patched, f, hproposal, happly, hfixed, -, -⟩
    · exact iff_of_false (by rw [hfails]; nofun) (by rw [hproposal]; nofun)
    · exact iff_of_true ⟨f, hfixed⟩ ⟨edits, patched, hproposal, happly⟩
  · rw [hcall, Tools.exists_respond_iff]
    rcases hfix with ⟨cause, hproposal, hfails⟩ | ⟨edits, patched, f, hproposal, happly, hfixed, -, -⟩
    · exact iff_of_false (by rw [hfails]; nofun) (by rw [hproposal]; nofun)
    · exact iff_of_true ⟨f, hfixed⟩ ⟨edits, hproposal⟩
  · rcases hfix with ⟨cause, hproposal, hfails⟩ | ⟨edits, patched, f', hproposal, happly, hfixed, rfl, hpatched⟩
    · cases hf.symm.trans hfails
    · obtain rfl : f = f' := Except.ok.inj (hf.symm.trans hfixed)
      refine ⟨?_, patched, hpatched, fun body q hbody htext hq => ?_⟩
      · rw [hcall, hproposal]
        rfl
      · rw [hrequest body q hbody htext hq, hproposal, Http.respond, happly]
  · obtain ⟨ds, notes, hverdict⟩ := exists_verdict (hparse text) rules p
    have hcheck := @Batch.checkFile_eq _ p p _ parse root rules hv.named hp ⟨hread, hself⟩
    rw [Utf8.decode?_encode] at hcheck
    dsimp only at hcheck
    rw [hverdict] at hcheck
    refine ⟨_, _, hcheck, ?_⟩
    rintro body q hbody rfl hq
    have hlanguage : q.language.name = Language.php.name := by cases q.language; rfl
    rw [Http.post_inspect hneed hbody, Http.exec_inspect, hq, hlanguage, found_of_location hroot hself huri,
      hverdict]
    dsimp only
    rw [List.map_map]
    rfl

/-- For every file without links on the way to it: the URI of its true path makes the hosts treat it alike. So does
its path as it is, unless the text is refused as a location. It is not refused if the first name holds something else
than tabs and line ends, and where it is refused neither a request nor a call is answered. -/
theorem hosts_agree (hparse : ∀ text, (parse text).WellFormed text.toList) {need : Act Reconciler} {s s' : Scene}
    (hneed : need.exec s = (.ok (.ofResolver (.autoload root rules) parse), s')) {q : Place}
    (hv : Vantage.Proper ⟨s'.disk, s'.cwd⟩) (hsolid : s'.disk.Solid q) (hq : ∀ n ∈ q, Path.IsEntry n)
    (hsource : Language.isSource (Path.ofPlace q) = true)
    (hread : Vantage.read ⟨s'.disk, s'.cwd⟩ (Path.ofPlace q) = .ok (Utf8.encode text)) :
    let r := Reconciler.ofResolver (.autoload root rules) parse
    let p := Path.ofPlace q
    Vantage.resolve ⟨s'.disk, s'.cwd⟩ p = .ok p ∧
    Alike r need s s' p text (Location.ofFile p.render).render ∧
    ((∃ l, locationOf (some p.render) = .ok l) → Alike r need s s' p text p.render) ∧
    ((∃ n ∈ q.head?, ∃ c ∈ n.toList, c ∉ ['\t', '\r', '\n']) → ∃ l, locationOf (some p.render) = .ok l) ∧
    ∀ e, locationOf (some p.render) = .error e →
      (∀ body q, Http.Sends body q → q.uri = some p.render →
        Http.post need s "/inspect" body = .error e ∧ Http.post need s "/reconcile" body = .error e) ∧
      ((Tools.reconcile r text (some p.render)).exec s').1 = .error e := by
  intro r p
  have hpath : Path.ofString p.render = p := Path.ofString_render fun n hn => (hq n hn).toIsName
  have hchars : p.render.toList = '/' :: ("/".intercalate q).toList := Path.toList_render_ofPlace q
  have hslash : p.render.toList.head? = some '/' := by rw [hchars]; rfl
  have hne {uri : String} {c : Char} (h : uri.toList.head? = some c) : uri ≠ "" := by
    rintro rfl
    cases h
  have hself : Vantage.resolve ⟨s'.disk, s'.cwd⟩ p = .ok p := Vantage.resolve_ofPlace hsolid hq
  have halike {uri : String} (huri : locationOf (some uri) = .ok (some (Location.ofFile p.render))) :
      Alike r need s s' p text uri :=
    alike_of_location hparse hneed hv ⟨rfl, fun n hn => (hq n hn).toIsName, hsource⟩ ⟨rfl, hq⟩ hself hread huri
  have hread : locationOf (some p.render) = .ok (some (Location.ofFile p.render)) ∨
      ∃ refusal, locationOf (some p.render) = .error (.location refusal) := by
    rw [locationOf, if_neg (hne hslash), Location.parse_path hslash]
    cases Location.Authority.check (Location.cutAuthority (Location.cleaned p.render.toList)).1 with
    | ok _ => exact .inl rfl
    | error refusal => exact .inr ⟨refusal, rfl⟩
  have hobstacle {e : Failure} (he : locationOf (some p.render) = .error e) :
      Obstacle ⟨s'.disk, s'.cwd⟩ root (some p.render) e := .unreadable he
  refine ⟨hself, halike ?_, ?_, ?_, fun e he => ⟨fun body q' hbody hq' => ?_, ?_⟩⟩
  · have huri : (Location.ofFile p.render).render = "file://" ++ Location.escape p.render := by
      rw [Location.render, Location.ofFile, if_pos rfl, hpath]
      rfl
    rw [huri]
    refine locationOf_of_parse (Location.parse_uri hslash) (hne (c := 'f') ?_)
    rw [String.toList_append]
    rfl
  · rintro ⟨l, hl⟩
    rcases hread with hok | ⟨refusal, hrefused⟩
    · exact halike hok
    · cases hl.symm.trans hrefused
  · rintro ⟨n, hn, c, hc, hkept⟩
    obtain ⟨rest, rfl⟩ := List.head?_eq_some_iff.mp hn
    obtain ⟨tail, htail⟩ := Text.exists_join_eq "/" n rest
    rw [htail] at hchars
    have hnoSlash : '/' ∉ n.toList := (hq n List.mem_cons_self).noSlash
    exact ⟨_, locationOf_of_parse (Location.parse_path_of_mem hchars hnoSlash hc hkept) (hne hslash)⟩
  · exact ((hobstacle he).fails hneed).1 body q' hbody hq'
  · exact (((hobstacle he).fails hneed).2 text).2

/-- A file below the directory of the only rule. -/
theorem hosts_agree_below :
    let text := "<?php class A \x7b\x7d"
    let s : Scene := ⟨⟨[(["src"], .directory), (["src", "B.php"], .file (Utf8.encode text))]⟩, [], [], [], [], none⟩
    let r := Reconciler.ofResolver (.autoload (Path.ofPlace []) [⟨"Acme", ["src"]⟩]) Batch.soundParse
    let p := Path.ofPlace ["src", "B.php"]
    (∀ text, (Batch.soundParse text).WellFormed text.toList) ∧ Vantage.Proper ⟨s.disk, s.cwd⟩ ∧
    s.disk.Solid ["src", "B.php"] ∧ Vantage.read ⟨s.disk, s.cwd⟩ p = .ok (Utf8.encode text) ∧
    Alike r (pure r) s s p text (Location.ofFile p.render).render ∧ Alike r (pure r) s s p text p.render := by
  intro text s r p
  have hnamed : s.disk.Named := by
    show ∀ e ∈ s.disk.nodes, ∀ n ∈ e.1, Path.IsEntry n
    decide +kernel
  have hv : Vantage.Proper ⟨s.disk, s.cwd⟩ := ⟨hnamed, Disk.solid_nil _⟩
  have hdirectory : s.disk.find? ["src"] = some .directory := by decide +kernel
  have hfile : s.disk.find? ["src", "B.php"] = some (.file (Utf8.encode text)) := by decide +kernel
  have hsolid : s.disk.Solid ["src", "B.php"] := by
    refine Disk.Solid.append (p := ["src"]) (Disk.Solid.append (p := []) (Disk.solid_nil _) ?_) ?_
    · intro t h
      cases hdirectory.symm.trans h
    · intro t h
      cases hfile.symm.trans h
  have hread : Vantage.read ⟨s.disk, s.cwd⟩ p = .ok (Utf8.encode text) := by
    cbv
  have hq : ∀ n ∈ ["src", "B.php"], Path.IsEntry n := by decide +kernel
  have hneed : (pure r : Act Reconciler).exec s = (.ok r, s) := rfl
  obtain ⟨-, huri, hpath, hnamed, -⟩ :=
    hosts_agree Batch.wellFormed_soundParse hneed hv hsolid hq (by decide +kernel) hread
  have hletter : ∃ n ∈ ["src", "B.php"].head?, ∃ c ∈ n.toList, c ∉ ['\t', '\r', '\n'] :=
    ⟨"src", rfl, 's', by decide, by decide⟩
  exact ⟨Batch.wellFormed_soundParse, hv, hsolid, hread, huri, hpath (hnamed hletter)⟩

/-- A file whose path is refused as a location: it can be fixed, and its edits are answered for its URI, but not for
its path. -/
theorem hosts_differ :
    let text := "<?php"
    let s : Scene := ⟨⟨[(["\t"], .directory), (["\t", "[x"], .directory),
      (["\t", "[x", "B.php"], .file (Utf8.encode text))]⟩, [], [], [], [], none⟩
    let r := Reconciler.ofResolver (.autoload (Path.ofPlace []) [⟨"Acme", []⟩]) Batch.soundParse
    let p := Path.ofPlace ["\t", "[x", "B.php"]
    let body := some "\x7b\"text\": \"<?php\", \"uri\": \"/\\t/[x/B.php\"\x7d"
    (∃ f, Batch.fixFile r ⟨s.disk, s.cwd⟩ false p = .ok f) ∧
    (∃ edits, ((Tools.reconcile r text (some (Location.ofFile p.render).render)).exec s).1 = .ok (.list edits)) ∧
    ((Tools.reconcile r text (some p.render)).exec s).1 = .error (.location .brackets) ∧
    Http.Sends body ⟨text, some p.render, .php⟩ ∧
    Http.post (pure r) s "/reconcile" body = .error (.location .brackets) := by
  intro text s r p body
  have hv : Vantage.Proper ⟨s.disk, s.cwd⟩ := by
    refine ⟨?_, Disk.solid_nil _⟩
    show ∀ e ∈ s.disk.nodes, ∀ n ∈ e.1, Path.IsEntry n
    decide +kernel
  have hroot : p.anchor = .root ∧ ∀ n ∈ p.names, Path.IsEntry n := ⟨rfl, by decide +kernel⟩
  have hmet : p.IsMet := ⟨rfl, fun n hn => (hroot.2 n hn).toIsName, by decide +kernel⟩
  have hself : Vantage.resolve ⟨s.disk, s.cwd⟩ p = .ok p := by cbv
  have hread : Vantage.read ⟨s.disk, s.cwd⟩ p = .ok (Utf8.encode text) := by cbv
  have hname : (Resolver.autoload (Path.ofPlace []) [⟨"Acme", []⟩]).nameAt p = .ok ⟨"Acme\\\t\\[x", "B"⟩ := by cbv
  have hneed : (pure r : Act Reconciler).exec s = (.ok r, s) := rfl
  have hfix : ∃ f, Batch.fixFile r ⟨s.disk, s.cwd⟩ false p = .ok f := by
    have hcases := @fixFile_of_proposal _ (.autoload (Path.ofPlace []) [⟨"Acme", []⟩]) Batch.soundParse text
      Batch.wellFormed_soundParse hv p hmet hself hread
    rcases hcases with ⟨cause, hproposal, -⟩ | ⟨edits, patched, f, -, -, hf, -⟩
    · rw [Reconciler.proposal, hname] at hproposal
      dsimp only at hproposal
      split at hproposal <;> cases hproposal
    · exact ⟨f, hf⟩
  have huri : Alike r (pure r) s s p text (Location.ofFile p.render).render :=
    alike_of_location Batch.wellFormed_soundParse hneed hv hmet hroot hself hread (by cbv)
  have hobstacle : Obstacle ⟨s.disk, s.cwd⟩ (Path.ofPlace []) (some p.render) (.location .brackets) :=
    .unreadable (by cbv)
  have hbody : Http.Sends body ⟨text, some p.render, .php⟩ :=
    ⟨some (.object [("text", .text text), ("uri", .text p.render)]), by cbv, by cbv⟩
  obtain ⟨hrequests, hcalls⟩ := hobstacle.fails hneed
  exact ⟨hfix, huri.call.mp hfix, (hcalls text).2, hbody, (hrequests body _ hbody rfl).2⟩

end Namesake.Host
