import Mathlib
import Namesake.Proofs.Agreement
import Namesake.Proofs.Fixing

/-! What a check reports on a file. `review` says it for one path, by the octets of the file and its true path
alone, and every path has a review: what keeps a file from being looked at is part of it. So a check of many files
never ends early, whatever the paths lead to, and an error stands in the report on exactly those that are no text in
a language. -/

namespace Namesake.Batch

open Text Syntax

variable {v : Vantage} {p k : Path} {data : Octets} {resolver : Resolver} {parse : String → Tree}

/-- The findings in a text whose file has the true path `k`. -/
def opinion (resolver : Resolver) (parse : String → Tree) (k : Path) (text : String) :
    Except Failure (List Diagnostic) :=
  match resolver.nameAt k with
  | .error _ => .ok []
  | .ok c =>
    match Corrections.ofTree (parse text) c with
    | .error ps => .error (.invalid ps)
    | .ok corrections =>
      match corrections.diagnostics with
      | .error ps => .error (.invalid ps)
      | .ok ds => .ok ds

/-- The findings in a file, by its octets, its path and its true path. -/
def diagnose (resolver : Resolver) (parse : String → Tree) (p k : Path) (data : Octets) :
    Except Failure (List Diagnostic) :=
  match Utf8.decode? data with
  | .error e => .error (.undecodable e)
  | .ok text =>
    match Language.resolve none (some p) with
    | .error r => .error (.language r)
    | .ok _ => opinion resolver parse k text

/-- What a check reports on a file. -/
def review (resolver : Resolver) (parse : String → Tree) (v : Vantage) (p : Path) : Report :=
  match v.read p with
  | .error e => ⟨p, [], some (unread p e)⟩
  | .ok data =>
    match diagnose resolver parse p (Path.ofPlace (v.disk.placeOf v.cwd p)) data with
    | .error e => ⟨p, [], some e⟩
    | .ok ds => ⟨p, ds.map (locate data), none⟩

@[simp] theorem path_review (resolver : Resolver) (parse : String → Tree) (v : Vantage) (p : Path) :
    (review resolver parse v p).path = p := by
  unfold review
  split
  · rfl
  · split <;> rfl

theorem isLocal_of_opinion {text : String} {e : Failure} (h : opinion resolver parse k text = .error e) :
    e.isLocal = true := by
  unfold opinion at h
  split at h
  · cases h
  · split at h
    · cases h
      rfl
    · split at h
      · cases h
        rfl
      · cases h

/-- Whatever keeps a file that was read from being looked at concerns this file only. -/
theorem isLocal_of_diagnose {e : Failure} (h : diagnose resolver parse p k data = .error e) : e.isLocal = true := by
  unfold diagnose at h
  split at h
  · cases h
    rfl
  · split at h
    · cases h
      rfl
    · exact isLocal_of_opinion h

theorem inspect_of_resolve (resolver : Resolver) (parse : String → Tree) (text language : String)
    (hk : k.anchor = .root ∧ ∀ n ∈ k.names, Path.IsEntry n) (hself : v.resolve k = .ok k) :
    ∃ notes, (Reconciler.ofResolver resolver parse).inspect v ⟨text, some (Location.ofFile k.render), language⟩ =
      (opinion resolver parse k text).map (·, notes) := by
  have hbest : (Reconciler.ofResolver resolver parse).best v k.render = .ok (resolver.nameAt k) :=
    resolver.best_eq_nameAt hk hself
  rw [Reconciler.inspect, Reconciler.compute_of_best _ _ hbest, opinion]
  cases resolver.nameAt k with
  | error cause => exact ⟨_, rfl⟩
  | ok c =>
      simp only [Reconciler.ofResolver]
      cases Corrections.ofTree (parse text) c with
      | error ps => exact ⟨[], rfl⟩
      | ok corrections =>
          dsimp only
          cases corrections.diagnostics <;> exact ⟨[], rfl⟩

/-- Looking at a file that can be read is diagnosing it. -/
theorem checkFile_of_read (hv : v.Proper) (resolver : Resolver) (parse : String → Tree)
    (hp : ∀ n ∈ p.names, Path.IsName n) (h : v.read p = .ok data) :
    ∃ notes, checkFile (.ofResolver resolver parse) v p =
      (diagnose resolver parse p (Path.ofPlace (v.disk.placeOf v.cwd p)) data).map fun ds =>
        (⟨p, ds.map (locate data), none⟩, notes) := by
  obtain ⟨hholds, -⟩ := hv.exists_holds h
  obtain ⟨hk, hself⟩ := Vantage.resolve_idem hv.named (.inr hv.solid) h hholds.resolve
  rw [checkFile, SourceUnit.ofFile_of_holds hp hholds, diagnose]
  cases hdata : Utf8.decode? data with
  | error e => exact ⟨[], rfl⟩
  | ok text =>
      dsimp only
      cases Language.resolve none (some p) with
      | error r => exact ⟨[], rfl⟩
      | ok l =>
          obtain ⟨notes, hinspect⟩ := inspect_of_resolve resolver parse text l.name hk hself
          refine ⟨notes, ?_⟩
          dsimp only [bind, Except.bind]
          rw [hinspect, Utf8.encode_of_decode? hdata]
          cases opinion resolver parse (Path.ofPlace (v.disk.placeOf v.cwd p)) text <;> rfl

/-- Every file gets its review. -/
theorem checkOne_eq (hv : v.Proper) (resolver : Resolver) (parse : String → Tree)
    (hp : ∀ n ∈ p.names, Path.IsName n) :
    ∃ notes, checkOne (.ofResolver resolver parse) v p = .ok (review resolver parse v p, notes) := by
  unfold review
  cases hread : v.read p with
  | error e =>
      have hfile : checkFile (.ofResolver resolver parse) v p = .error (unread p e) := by
        rw [checkFile, SourceUnit.ofFile, readText_of_error hp hread]
        rfl
      rw [checkOne, hfile]
      dsimp only
      rw [if_pos (isLocal_unread hread)]
      exact ⟨_, rfl⟩
  | ok data =>
      obtain ⟨notes, hfile⟩ := checkFile_of_read hv resolver parse hp hread
      rw [checkOne, hfile]
      dsimp only
      cases hdiagnose : diagnose resolver parse p (Path.ofPlace (v.disk.placeOf v.cwd p)) data with
      | error e =>
          dsimp only [Except.map]
          rw [if_pos (isLocal_of_diagnose hdiagnose)]
          exact ⟨_, rfl⟩
      | ok ds => exact ⟨notes, rfl⟩

/-- A check of many files never fails and reviews each of them. -/
theorem checkFiles_eq (hv : v.Proper) (resolver : Resolver) (parse : String → Tree) {ps : List Path}
    (hps : ∀ p ∈ ps, ∀ n ∈ p.names, Path.IsName n) :
    (checkFiles (.ofResolver resolver parse) v ps).outcome = .ok (ps.map (review resolver parse v)) := by
  induction ps with
  | nil => rfl
  | cons p ps ih =>
      obtain ⟨hp, hps⟩ := List.forall_mem_cons.mp hps
      obtain ⟨notes, hone⟩ := checkOne_eq hv resolver parse hp
      rw [checkFiles, hone]
      dsimp only
      rw [ih hps]
      rfl

theorem map_path_review (resolver : Resolver) (parse : String → Tree) (v : Vantage) (ps : List Path) :
    (ps.map (review resolver parse v)).map Report.path = ps := by
  rw [List.map_map]
  exact (List.map_congr_left fun p _ => path_review resolver parse v p).trans (List.map_id ps)

/-- A review without an error is one of a file that can be read. -/
theorem exists_read_of_review (h : (review resolver parse v p).error = none) : ∃ data, v.read p = .ok data := by
  unfold review at h
  cases hread : v.read p with
  | error e =>
      rw [hread] at h
      cases h
  | ok data => exact ⟨data, rfl⟩

/-- With a sound parser there is always an opinion. -/
theorem exists_opinion {text : String} (ht : (parse text).WellFormed text.toList) (resolver : Resolver) (k : Path) :
    ∃ ds, opinion resolver parse k text = .ok ds := by
  unfold opinion
  cases resolver.nameAt k with
  | error cause => exact ⟨[], rfl⟩
  | ok c =>
      obtain ⟨corrections, ds, hcorrections, hds, -⟩ := Corrections.exists_diagnostics ht c
      refine ⟨ds, ?_⟩
      simp only [hcorrections, hds]

/-- With a sound parser the review of a source has an error exactly if the source cannot be read as a text. -/
theorem error_review_iff (hparse : ∀ text, (parse text).WellFormed text.toList) (resolver : Resolver)
    (hp : Language.isSource p = true) :
    (review resolver parse v p).error = none ↔ ∃ data text, v.read p = .ok data ∧ Utf8.decode? data = .ok text := by
  unfold review
  cases hread : v.read p with
  | error e =>
      refine iff_of_false nofun ?_
      rintro ⟨data, text, hdata, -⟩
      cases hdata
  | ok data =>
      unfold diagnose
      dsimp only
      cases htext : Utf8.decode? data with
      | error e =>
          refine iff_of_false nofun ?_
          rintro ⟨data', text, hdata', htext'⟩
          cases hdata'
          rw [htext] at htext'
          cases htext'
      | ok text =>
          obtain ⟨ds, hds⟩ := exists_opinion (hparse text) resolver (Path.ofPlace (v.disk.placeOf v.cwd p))
          simp only [Language.resolve_of_source hp, hds]
          exact iff_of_true trivial ⟨data, text, rfl, htext⟩

end Namesake.Batch
