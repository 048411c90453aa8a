import Namesake.Incremental
import Namesake.Proofs.Listing
import Namesake.Report

/-! Checks that pass over known files, and the record after them. Leaving out files that a check would find
right leaves out their reports and nothing else, and a record gains entries only for files that were found
right as they are. -/

namespace Namesake

open Text Json

variable {r : Reconciler} {v : Vantage} {p q : Path}

namespace Batch

def FoundRight (r : Reconciler) (v : Vantage) (p : Path) : Prop :=
  ∃ notes, checkFile r v p = .ok (⟨p, [], none⟩, notes)

theorem path_of_checkFile {report : Report} {notes : List Note} (h : checkFile r v p = .ok (report, notes)) :
    report.path = p ∧ report.error = none := by
  obtain ⟨u, ds, -, -, rfl⟩ := checkFile_eq_ok_iff.mp h
  exact ⟨rfl, rfl⟩

theorem checkOne_cases {report : Report} {notes : List Note} (h : checkOne r v p = .ok (report, notes)) :
    report.path = p ∧ (checkFile r v p = .ok (report, notes) ∨ report.error ≠ none) := by
  rw [checkOne] at h
  cases hfile : checkFile r v p with
  | ok found =>
      rw [hfile] at h
      cases h
      exact ⟨(path_of_checkFile hfile).1, .inl rfl⟩
  | error e =>
      simp only [hfile] at h
      split_ifs at h
      cases h
      exact ⟨rfl, .inr (Option.some_ne_none e)⟩

theorem foundRight_of_isClean {report : Report} {notes : List Note} (h : checkOne r v p = .ok (report, notes))
    (hclean : Incremental.isClean report = true) : FoundRight r v p := by
  obtain ⟨hpath, hfile | herror⟩ := checkOne_cases h
  · rw [Incremental.isClean, Bool.and_eq_true, Option.isNone_iff_eq_none, List.isEmpty_iff] at hclean
    obtain ⟨path, findings, error⟩ := report
    obtain ⟨rfl, rfl⟩ := hclean
    obtain rfl : path = p := hpath
    exact ⟨notes, hfile⟩
  · rw [Incremental.isClean, Bool.and_eq_true, Option.isNone_iff_eq_none] at hclean
    exact absurd hclean.1 herror

/-- A file that was looked at can be read and resolved. -/
theorem exists_holds (hp : ∀ n ∈ p.names, Path.IsName n) (h : FoundRight r v p) : ∃ q data, v.Holds p q data := by
  obtain ⟨notes, h⟩ := h
  obtain ⟨u, ds, hu, -, -⟩ := checkFile_eq_ok_iff.mp h
  obtain ⟨q, data, l, hholds, -⟩ := SourceUnit.holds_of_ofFile hp hu
  exact ⟨q, data, hholds⟩

/-- What was looked at is a source. -/
theorem isSource_of_foundRight (hp : ∀ n ∈ p.names, Path.IsName n) (h : FoundRight r v p) :
    Language.isSource p = true := by
  obtain ⟨notes, h⟩ := h
  obtain ⟨u, ds, hu, -, -⟩ := checkFile_eq_ok_iff.mp h
  obtain ⟨q, data, l, -, hl⟩ := SourceUnit.holds_of_ofFile hp hu
  by_contra hsource
  rw [Language.resolve_of_not_source (Bool.eq_false_of_not_eq_true hsource)] at hl
  cases hl

/-! ### Many files -/

/-- Each file gets its report, in order. -/
theorem map_path_of_checkFiles {ps : List Path} {reports : List Report}
    (h : (checkFiles r v ps).outcome = .ok reports) :
    reports.map Report.path = ps ∧ ∀ report ∈ reports, ∃ notes, checkOne r v report.path = .ok (report, notes) := by
  induction ps generalizing reports with
  | nil =>
      cases h
      exact ⟨rfl, List.forall_mem_nil _⟩
  | cons p ps ih =>
      rw [checkFiles] at h
      cases hone : checkOne r v p with
      | error e =>
          rw [hone] at h
          cases h
      | ok found =>
          obtain ⟨report, notes⟩ := found
          simp only [hone] at h
          obtain ⟨rest, hrest, rfl⟩ := map_eq_ok_iff.mp h
          obtain ⟨rfl, -⟩ := checkOne_cases hone
          obtain ⟨hpaths, hreports⟩ := ih hrest
          exact ⟨congrArg _ hpaths, List.forall_mem_cons.mpr ⟨⟨notes, hone⟩, hreports⟩⟩

theorem of_mem_checkFiles {ps : List Path} {reports : List Report}
    (h : (checkFiles r v ps).outcome = .ok reports) :
    ∀ report ∈ reports, report.path ∈ ps ∧ ∃ notes, checkOne r v report.path = .ok (report, notes) := by
  obtain ⟨rfl, hreports⟩ := map_path_of_checkFiles h
  intro report hreport
  exact ⟨List.mem_map_of_mem hreport, hreports report hreport⟩

/-- Leaving out files that would be found right leaves out their reports. -/
theorem checkFiles_filter {ps : List Path} (keep : Path → Bool)
    (h : ∀ p ∈ ps, keep p = false → FoundRight r v p) :
    (checkFiles r v (ps.filter keep)).outcome =
      (checkFiles r v ps).outcome.map fun reports => reports.filter fun report => keep report.path := by
  induction ps with
  | nil => rfl
  | cons p ps ih =>
      obtain ⟨hp, hps⟩ := List.forall_mem_cons.mp h
      have ih := ih hps
      cases hkeep : keep p with
      | true =>
          rw [List.filter_cons_of_pos hkeep, checkFiles, checkFiles]
          cases hone : checkOne r v p with
          | error e => rfl
          | ok found =>
              obtain ⟨report, notes⟩ := found
              obtain ⟨rfl, -⟩ := checkOne_cases hone
              simp only [ih]
              cases (checkFiles r v ps).outcome with
              | error e => rfl
              | ok rest => simp only [Except.map, List.filter_cons, hkeep, if_true]
      | false =>
          obtain ⟨notes, hfile⟩ := hp hkeep
          have hone : checkOne r v p = .ok (⟨p, [], none⟩, notes) := by rw [checkOne, hfile]
          rw [List.filter_cons_of_neg (by simp [hkeep]), checkFiles, hone, ih]
          simp only
          cases (checkFiles r v ps).outcome with
          | error e => rfl
          | ok rest => simp only [Except.map, List.filter_cons, hkeep, Bool.false_eq_true, if_false]

end Batch

namespace Report

/-- Reports in which nothing was found add no row and no line of an error. -/
theorem rows_filter {reports : List Report} {keep : Report → Bool}
    (h : ∀ report ∈ reports, keep report = false → report.findings = [] ∧ report.error = none) :
    rows (reports.filter keep) = rows reports ∧ errors (reports.filter keep) = errors reports := by
  induction reports with
  | nil => exact ⟨rfl, rfl⟩
  | cons report reports ih =>
      obtain ⟨hreport, hreports⟩ := List.forall_mem_cons.mp h
      obtain ⟨hrows, herrors⟩ := ih hreports
      rw [rows] at hrows
      rw [errors] at herrors
      cases hkeep : keep report with
      | true =>
          rw [List.filter_cons_of_pos hkeep]
          simp only [rows, errors, List.flatMap_cons, List.filterMap_cons, hrows, herrors, and_self]
      | false =>
          obtain ⟨hfindings, herror⟩ := hreport hkeep
          rw [List.filter_cons_of_neg (by simp [hkeep])]
          simp only [rows, errors, List.flatMap_cons, List.filterMap_cons, hfindings, herror, List.map_nil,
            List.nil_append, Option.map_none]
          exact ⟨hrows, herrors⟩

end Report

namespace Incremental

/-- After the report of a file the record has the old entries, and one for this file only if it was found
right as it is. -/
theorem exists_settle {report : Report} {notes : List Note} (known : Freshness)
    (hp : ∀ n ∈ report.path.names, Path.IsName n)
    (hone : Batch.checkOne r v report.path = .ok (report, notes)) (hq : v.resolve report.path = .ok q) :
    ∃ known', settle v known report = .ok known' ∧ ∀ entry ∈ known'.digests, entry ∈ known.digests ∨
      ∃ data, v.Holds report.path q data ∧ Batch.FoundRight r v report.path ∧
        entry = (q.render, Digest.sha256 data) := by
  rw [settle]
  cases hclean : isClean report with
  | true =>
      have hright := Batch.foundRight_of_isClean hone hclean
      obtain ⟨q', data, hholds⟩ := Batch.exists_holds hp hright
      obtain rfl : q' = q := Except.ok.inj (hholds.resolve.symm.trans hq)
      refine ⟨_, Freshness.mark_of_holds known hholds, fun entry hentry => ?_⟩
      rcases mem_set hentry with rfl | hentry
      · exact .inr ⟨data, hholds, hright, rfl⟩
      · exact .inl hentry
  | false =>
      exact ⟨_, Freshness.forget_of_resolve known hq, fun entry hentry => .inl (List.mem_of_mem_filter hentry)⟩

theorem exists_settleAll {reports : List Report} (known : Freshness)
    (h : ∀ report ∈ reports, (∀ n ∈ report.path.names, Path.IsName n) ∧ (∃ q, v.resolve report.path = .ok q) ∧
      ∃ notes, Batch.checkOne r v report.path = .ok (report, notes)) :
    ∃ known', settleAll v known reports = .ok known' ∧ ∀ entry ∈ known'.digests, entry ∈ known.digests ∨
      ∃ report ∈ reports, ∃ q data, v.Holds report.path q data ∧ Batch.FoundRight r v report.path ∧
        entry = (q.render, Digest.sha256 data) := by
  induction reports generalizing known with
  | nil => exact ⟨known, rfl, fun entry hentry => .inl hentry⟩
  | cons report reports ih =>
      obtain ⟨⟨hp, ⟨q, hq⟩, notes, hone⟩, hrest⟩ := List.forall_mem_cons.mp h
      obtain ⟨first, hfirst, hmem⟩ := exists_settle known hp hone hq
      obtain ⟨last, hlast, hmore⟩ := ih first hrest
      refine ⟨last, ?_, fun entry hentry => ?_⟩
      · rw [settleAll, List.foldlM_cons, hfirst]
        exact hlast
      · rcases hmore entry hentry with hentry | ⟨x, hx, q', data, hfound⟩
        · rcases hmem entry hentry with hentry | ⟨data, hfound⟩
          · exact .inl hentry
          · exact .inr ⟨report, List.mem_cons_self, q, data, hfound⟩
        · exact .inr ⟨x, List.mem_cons_of_mem _ hx, q', data, hfound⟩

end Incremental

end Namesake
