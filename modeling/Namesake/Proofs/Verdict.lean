import Namesake.Batch
import Namesake.Proofs.Lookup
import Namesake.Proofs.Outcomes

/-! What is found in a file depends on its true path and its octets alone. The path by which it is met, the
disk around it and the directory that relative paths start from do not matter, because the true path is its
own true path wherever the file can be read. -/

namespace Namesake

open Text Syntax

variable {v v' : Vantage} {p p' k : Path} {data : Octets}

/-- A file in one of the languages as it is met below a root. -/
structure Path.IsMet (p : Path) : Prop where
  absolute : p.isAbsolute = true
  names : ∀ n ∈ p.names, IsName n
  source : Language.isSource p = true

namespace Vantage

/-- The file that a path leads to can be read, has these octets and that true path. -/
structure Holds (v : Vantage) (p k : Path) (data : Octets) : Prop where
  read : v.read p = .ok data
  resolve : v.resolve p = .ok k

end Vantage

theorem Language.ofPath_of_source (h : isSource p = true) : ofPath p = .ok .php := by
  unfold isSource at h
  unfold ofPath
  generalize toLower p.suffix = suffix at *
  cases hl : ofSuffix? suffix with
  | none =>
      rw [hl] at h
      cases h
  | some l =>
      cases l
      simp only [hl]

theorem Language.resolve_of_source (h : isSource p = true) : resolve none (some p) = .ok .php := by
  have hpath := ofPath_of_source h
  exact hpath

theorem Language.resolve_of_not_source (h : isSource p = false) :
    resolve none (some p) = .error (.unknownSuffix (toLower p.suffix)) := by
  have hpath : ofPath p = .error (.unknownSuffix (toLower p.suffix)) := by
    unfold isSource at h
    unfold ofPath
    generalize toLower p.suffix = suffix at *
    simp only [Option.isNone_iff_eq_none.mp (Option.isSome_eq_false_iff.mp h)]
  exact hpath

theorem Reconciler.filePath_eq_ok_iff {u : SourceUnit} {path : String} :
    filePath u = .ok path ↔ u.location = some (Location.ofFile path) := by
  unfold filePath
  cases hlocation : u.location with
  | none => simp
  | some l =>
      obtain ⟨scheme, place⟩ := l
      simp only [Location.ofFile, Option.some.injEq, Location.mk.injEq]
      split_ifs with hscheme
      · rw [Except.ok.injEq, and_iff_right hscheme]
      · exact iff_of_false nofun fun h => hscheme h.1

/-- What the source in a file has to change is told from the name that its path has and from its tree. -/
theorem Reconciler.compute_of_best {r : Reconciler} {path : String} {named : Except NoCandidate ClassName}
    (text language : String) : r.best v path = .ok named →
      r.compute v ⟨text, some (Location.ofFile path), language⟩ = match named with
        | .error cause => .ok (.error (.noName path cause))
        | .ok c =>
          match Corrections.ofTree (r.parse text) c with
          | .ok corrections => .ok (.ok corrections)
          | .error ps => .error (.invalid ps) := by
  intro h
  have hfile : filePath ⟨text, some (Location.ofFile path), language⟩ = .ok path := filePath_eq_ok_iff.mpr rfl
  rw [compute, hfile]
  dsimp only
  rw [h]
  cases named <;> rfl

/-- The source in a file, by its octets and its true path. -/
theorem SourceUnit.ofFile_of_holds (hp : ∀ n ∈ p.names, Path.IsName n) (h : v.Holds p k data) :
    ofFile v p.render none =
      match Utf8.decode? data with
      | .error e => .error (.undecodable e)
      | .ok s =>
        match Language.resolve none (some p) with
        | .error r => .error (.language r)
        | .ok l => .ok ⟨s, some (Location.ofFile k.render), l.name⟩ := by
  rw [ofFile, readText, Path.ofString_render hp, h.read]
  dsimp only
  cases hdata : Utf8.decode? data with
  | error e => rfl
  | ok s =>
      simp only [h.resolve]
      cases Language.resolve none (some p) <;> rfl

/-- What is read as a source is a file with a true path, and its suffix names a language. -/
theorem SourceUnit.holds_of_ofFile {u : SourceUnit} (hp : ∀ n ∈ p.names, Path.IsName n)
    (h : ofFile v p.render none = .ok u) :
    ∃ k data l, v.Holds p k data ∧ Language.resolve none (some p) = .ok l := by
  rw [ofFile, Path.ofString_render hp] at h
  obtain ⟨text, htext, h⟩ := bind_eq_ok_iff.mp h
  obtain ⟨k, hk, h⟩ := bind_eq_ok_iff.mp h
  obtain ⟨l, hl⟩ : ∃ l, Language.resolve none (some p) = .ok l := by
    cases hl : Language.resolve none (some p) with
    | error e =>
        rw [hl] at h
        cases h
    | ok l => exact ⟨l, rfl⟩
  cases hread : v.read p with
  | error e =>
      rw [readText, Path.ofString_render hp, hread] at htext
      cases e with
      | access a =>
          obtain ⟨t, path, second⟩ := a
          cases t <;> cases htext
      | _ => cases htext
  | ok data => exact ⟨k, data, l, ⟨hread, hk⟩, hl⟩

theorem SourceUnit.ofFile_eq (hp : p.IsMet) (h : v.Holds p k data) :
    ofFile v p.render none =
      match Utf8.decode? data with
      | .ok s => .ok ⟨s, some (Location.ofFile k.render), Language.php.name⟩
      | .error e => .error (.undecodable e) := by
  rw [ofFile_of_holds hp.names h, Language.resolve_of_source hp.source]
  cases Utf8.decode? data <;> rfl

/-- The name of a file that is its own true path comes from the rules alone. -/
theorem Resolver.best_of_resolve {root : Path} {rules : List Rule}
    (hk : k.anchor = .root ∧ ∀ n ∈ k.names, Path.IsEntry n) (hself : v.resolve k = .ok k) :
    (autoload root rules).best v k.render =
      .ok (match derived rules k.names with
        | [] => .error (.notDerived k.render)
        | c :: _ => .ok c) := by
  have hread : Path.ofString k.render = k := Path.ofString_render fun n hn => (hk.2 n hn).toIsName
  have hjoin : root.join k = k := by
    have habs : k.isAbsolute = true := by simp [Path.isAbsolute, hk.1]
    rw [Path.join, if_pos habs]
  rw [best, candidates, hread, hjoin, hself]
  dsimp only [Except.map]
  cases derived rules k.names <;> rfl

/-- What is found in a text whose file has a true path, as far as rules give this path a name. -/
def verdict (parse : String → Tree) (rules : List Rule) (k : Path) (text : String) :
    Except Failure (List Diagnostic × List Note) :=
  match Resolver.derived rules k.names with
  | [] =>
    .ok ([], [Reconciler.silence ⟨text, some (Location.ofFile k.render), Language.php.name⟩
      (.noName k.render (.notDerived k.render))])
  | c :: _ =>
    match Corrections.ofTree (parse text) c with
    | .error ps => .error (.invalid ps)
    | .ok corrections =>
      match corrections.diagnostics with
      | .ok ds => .ok (ds, [])
      | .error ps => .error (.invalid ps)

/-- Without rules nothing is found. -/
theorem verdict_nil (parse : String → Tree) (k : Path) (text : String) :
    ∃ notes, verdict parse [] k text = .ok ([], notes) := by
  rw [verdict, Resolver.derived, Resolver.ranked, List.mergeSort_nil]
  exact ⟨_, rfl⟩

variable {parse : String → Tree} {root root' : Path} {rules : List Rule}

/-- The findings in a text whose file is its own true path come from the rules and the text. -/
theorem Reconciler.inspect_of_resolve {text : String} (hk : k.anchor = .root ∧ ∀ n ∈ k.names, Path.IsEntry n)
    (hself : v.resolve k = .ok k) :
    (ofResolver (.autoload root rules) parse).inspect v
        ⟨text, some (Location.ofFile k.render), Language.php.name⟩ = verdict parse rules k text := by
  have hbest : (ofResolver (.autoload root rules) parse).best v k.render = _ := Resolver.best_of_resolve hk hself
  rw [inspect, compute_of_best _ _ hbest, verdict]
  cases Resolver.derived rules k.names with
  | nil => rfl
  | cons c cs =>
      simp only [ofResolver]
      cases Corrections.ofTree (parse text) c <;> rfl

namespace Batch

/-- A file that is looked at is read as a source, and its report locates what is found in the source. -/
theorem checkFile_eq_ok_iff {r : Reconciler} {report : Report} {notes : List Note} :
    checkFile r v p = .ok (report, notes) ↔ ∃ u ds, SourceUnit.ofFile v p.render none = .ok u ∧
      r.inspect v u = .ok (ds, notes) ∧ report = ⟨p, ds.map (locate (Utf8.encode u.text)), none⟩ := by
  rw [checkFile, bind_eq_ok_iff]
  simp only [bind_eq_ok_iff]
  constructor
  · rintro ⟨u, hu, ⟨ds, notes'⟩, hfound, heq⟩
    cases heq
    exact ⟨u, ds, hu, hfound, rfl⟩
  · rintro ⟨u, ds, hu, hfound, rfl⟩
    exact ⟨u, hu, (ds, notes), hfound, rfl⟩

/-- The report on a file, by its octets and its true path. -/
theorem checkFile_eq (hv : v.disk.Named) (hp : p.IsMet) (h : v.Holds p k data) :
    checkFile (.ofResolver (.autoload root rules) parse) v p =
      match Utf8.decode? data with
      | .error e => .error (.undecodable e)
      | .ok s => (verdict parse rules k s).map fun found =>
          (⟨p, found.1.map (locate (Utf8.encode s)), none⟩, found.2) := by
  obtain ⟨hk, hself⟩ := Vantage.resolve_idem hv (.inl hp.absolute) h.read h.resolve
  rw [checkFile, SourceUnit.ofFile_eq hp h]
  cases Utf8.decode? data with
  | error e => rfl
  | ok s =>
      dsimp only [bind, Except.bind]
      rw [Reconciler.inspect_of_resolve hk hself]
      cases verdict parse rules k s <;> rfl

/-- Two files with one true path and the same octets get the same findings, by whatever paths they are met on
whatever disks. -/
theorem checkFile_congr (hv : v.disk.Named) (hv' : v'.disk.Named) (hp : p.IsMet) (hp' : p'.IsMet)
    (h : v.Holds p k data) (h' : v'.Holds p' k data) :
    (checkFile (.ofResolver (.autoload root rules) parse) v p).map (fun x => (x.1.findings, x.2)) =
      (checkFile (.ofResolver (.autoload root' rules) parse) v' p').map fun x => (x.1.findings, x.2) := by
  rw [checkFile_eq hv hp h, checkFile_eq hv' hp' h']
  cases Utf8.decode? data with
  | error e => rfl
  | ok s =>
      dsimp only
      cases verdict parse rules k s <;> rfl

end Batch

end Namesake
