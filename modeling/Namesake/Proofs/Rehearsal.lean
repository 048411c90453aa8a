import Namesake.Proofs.FixRuns
import Namesake.Proofs.ProjectChecks

/-! A rehearsal says what a run of fixes will do. A rehearsed plan is the plan without the writing, so a rehearsal
leaves the disk alone, and where the files are apart it gives the reports of the run, but that nothing is written.
A command line works on files that are apart, because each file is listed under one path; so with and without
a rehearsal it ends alike, and its lines name the same files and the same counts. -/

namespace Namesake

open Text Syntax

/-- The report of a rehearsal of the fix. -/
def FixReport.rehearsed (r : FixReport) : FixReport :=
  { r with written := false }

namespace Batch

variable {v : Vantage} {ps : List Path} {parse : String → Tree}

theorem plan_rehearsed (resolver : Resolver) (parse : String → Tree) (dry : Bool) (v : Vantage) (p : Path) :
    plan resolver parse true v p = ((plan resolver parse dry v p).1.rehearsed, none) := by
  unfold plan
  cases v.read p with
  | error e => rfl
  | ok data =>
      dsimp only
      cases draft resolver parse p (Path.ofPlace (v.disk.placeOf v.cwd p)) data with
      | error e => rfl
      | ok edits =>
          dsimp only
          rw [Bool.or_true, if_pos rfl]
          split_ifs <;> rfl

/-- A run writes exactly the files that have edits. -/
theorem written_plan_iff (resolver : Resolver) (parse : String → Tree) (v : Vantage) (p : Path) :
    (plan resolver parse false v p).1.written = true ↔ (plan resolver parse false v p).1.edits ≠ [] := by
  unfold plan
  cases v.read p with
  | error e => exact iff_of_false Bool.false_ne_true fun h => h rfl
  | ok data =>
      dsimp only
      cases draft resolver parse p (Path.ofPlace (v.disk.placeOf v.cwd p)) data with
      | error e => exact iff_of_false Bool.false_ne_true fun h => h rfl
      | ok edits =>
          cases edits with
          | nil => exact iff_of_false Bool.false_ne_true fun h => h rfl
          | cons e es => exact iff_of_true rfl (List.cons_ne_nil e es)

variable (hparse : ∀ text, (parse text).WellFormed text.toList)

include hparse

/-- A rehearsal reports the plans for its files as they are at the beginning, whatever files these are. -/
theorem fixFiles_rehearsed (hv : v.Proper) (resolver : Resolver) (hps : ∀ p ∈ ps, ∀ n ∈ p.names, Path.IsName n) :
    (fixFiles (.ofResolver resolver parse) true v ps).1.outcome =
        .ok (ps.map fun p => (plan resolver parse true v p).1) ∧
      (fixFiles (.ofResolver resolver parse) true v ps).2 = v.disk := by
  induction ps with
  | nil => exact ⟨rfl, rfl⟩
  | cons p ps ih =>
      obtain ⟨hp, hps⟩ := List.forall_mem_cons.mp hps
      obtain ⟨hrest, hdisk⟩ := fixFiles_cons hparse hv resolver true hp ps
      obtain ⟨houtcome, hkept⟩ := ih hps
      have hidle : v.carry (plan resolver parse true v p).2 = v := by
        rw [plan_rehearsed resolver parse true]
        rfl
      rw [hrest, hdisk, hidle, houtcome, hkept]
      exact ⟨rfl, rfl⟩

/-- Where the files are apart a rehearsal gives the reports of the run, but that nothing is written. -/
theorem fixFiles_foretold (hv : v.Proper) (resolver : Resolver) (dry : Bool)
    (hps : ∀ p ∈ ps, ∀ n ∈ p.names, Path.IsName n) (hapart : ps.Pairwise (Apart v)) :
    (fixFiles (.ofResolver resolver parse) dry v ps).1.outcome =
        .ok (ps.map fun p => (plan resolver parse dry v p).1) ∧
      (fixFiles (.ofResolver resolver parse) true v ps).1.outcome =
        .ok ((ps.map fun p => (plan resolver parse dry v p).1).map FixReport.rehearsed) := by
  refine ⟨(fixFiles_apart hparse hv resolver dry hps hapart).1, ?_⟩
  rw [(fixFiles_rehearsed hparse hv resolver hps).1, List.map_map]
  congr 1
  apply List.map_congr_left
  intro p _
  rw [plan_rehearsed resolver parse dry]
  rfl

end Batch

/-! ### Lines -/

namespace Report

/-- The lines are the same, or they name the same file with as many edits, the first one as a file that would be fixed
and the second one as a file that is. -/
inductive Foretells : String → String → Prop
  | same (line : String) : Foretells line line
  | fix (path : Path) (count : Nat) :
      Foretells s!"Would fix {path.render} ({count} edit(s))" s!"Fixed {path.render} ({count} edit(s))"

theorem fixLine?_foretells (dry : Bool) (r : FixReport) :
    fixLine? true r.rehearsed = none ∧ fixLine? dry r = none ∨
      ∃ a b, fixLine? true r.rehearsed = some a ∧ fixLine? dry r = some b ∧ Foretells a b := by
  obtain ⟨p, edits, written, error⟩ := r
  cases error with
  | some e => exact .inr ⟨_, _, rfl, rfl, .same _⟩
  | none =>
      cases edits with
      | nil => exact .inl ⟨rfl, rfl⟩
      | cons e es =>
          cases dry with
          | true => exact .inr ⟨_, _, rfl, rfl, .same _⟩
          | false => exact .inr ⟨_, _, rfl, rfl, .fix p (e :: es).length⟩

/-- The line of totals comes last and is the same; before it stand the lines for the files. -/
theorem fixLines_foretell (dry : Bool) (reports : List FixReport) :
    List.Forall₂ Foretells (fixLines true (reports.map FixReport.rehearsed)) (fixLines dry reports) ∧
      (fixLines true (reports.map FixReport.rehearsed)).getLast? = (fixLines dry reports).getLast? := by
  have hfiles : List.Forall₂ Foretells ((reports.map FixReport.rehearsed).filterMap (fixLine? true))
      (reports.filterMap (fixLine? dry)) := by
    induction reports with
    | nil => exact .nil
    | cons r reports ih =>
        rw [List.map_cons, List.filterMap_cons, List.filterMap_cons]
        rcases fixLine?_foretells dry r with ⟨hnone, hnone'⟩ | ⟨a, b, ha, hb, hab⟩
        · rw [hnone, hnone']
          exact ih
        · rw [ha, hb]
          exact .cons hab ih
  have hchanged : (reports.map FixReport.rehearsed).countP isChanged = reports.countP isChanged := by
    rw [List.countP_map]
    rfl
  have hfailed : (reports.map FixReport.rehearsed).countP isFailed = reports.countP isFailed := by
    rw [List.countP_map]
    rfl
  simp only [fixLines, hchanged, hfailed, List.length_map, List.getLast?_concat, and_true]
  exact List.rel_append hfiles (.cons (.same _) .nil)

end Report

/-! ### Command lines -/

namespace Host

variable {s : Scene}

/-- Of two ends of a command that is begun in the scene `s` the first one is that of a rehearsal of the second: it leaves
the disk as it was and ends alike, and what it says foretells what the other one says, the totals being equal. -/
structure Rehearses {α : Type} (s : Scene) (dry real : α × Scene) : Prop where
  disk : dry.2.disk = s.disk
  ending : dry.1 = real.1
  lines : ∃ lines lines', dry.2.printed = s.printed ++ lines ∧ real.2.printed = s.printed ++ lines' ∧
    List.Forall₂ Report.Foretells lines lines' ∧ lines.getLast? = lines'.getLast?

theorem Rehearses.silent {α : Type} {dry real : α × Scene} (hdisk : dry.2.disk = s.disk) (hending : dry.1 = real.1)
    (hdry : dry.2.printed = s.printed) (hreal : real.2.printed = s.printed) : Rehearses s dry real := by
  refine ⟨hdisk, hending, [], [], ?_, ?_, .nil, rfl⟩
  · rw [hdry, List.append_nil]
  · rw [hreal, List.append_nil]

theorem Rehearses.refl {α : Type} (x : α) (s : Scene) : Rehearses s (x, s) (x, s) :=
  .silent rfl rfl rfl rfl

namespace CommandLine

variable {parse : String → Tree} {ws : List Word} {sub : Option Path}

/-- What a run of fixes works on: the names of the project, and its files or those of a part of it. -/
def worklist (ws : List Word) (sub : Option Path) (s : Scene) : Except Failure (Resolver × List Path) :=
  match settingsIn ws s with
  | .error e => .error e
  | .ok st =>
    match (Resolver.ofManifest s.vantage st.root).outcome with
    | .error e => .error e
    | .ok r => ((FileList.ofSettings st).files s.vantage none sub).outcome.map (r, ·)

def statusOfFixes (reports : List FixReport) : Nat :=
  if reports.any Report.isFailed then trouble else success

theorem exec_fix (parse : String → Tree) (ws : List Word) (sub : Option Path) (s : Scene) :
    ∃ notes, (fix parse ws sub).exec s =
      match worklist ws sub s with
      | .error e => (.error e, { s with notes := notes })
      | .ok (r, files) =>
        let run := Batch.fixFiles (.ofResolver r parse) (holds .dryRun ws) s.vantage files
        match run.1.outcome with
        | .error e => (.error e, { s with notes := notes, disk := run.2 })
        | .ok reports => (.ok (statusOfFixes reports), { s with
            printed := s.printed ++ Report.fixLines (holds .dryRun ws) reports, notes := notes, disk := run.2 }) := by
  rw [fix, worklist, Act.exec_bind, exec_settings]
  cases settingsIn ws s with
  | error e => exact ⟨s.notes, rfl⟩
  | ok st =>
      obtain ⟨notes, hrec⟩ := exec_reconciler parse st s
      dsimp only
      rw [Act.exec_bind, hrec]
      cases hr : (Resolver.ofManifest s.vantage st.root).outcome with
      | error e => exact ⟨notes, rfl⟩
      | ok r =>
          dsimp only [Except.map]
          rw [Act.exec_bind, Act.exec_vantage]
          dsimp only
          rw [Act.exec_bind, Act.exec_perform]
          cases ((FileList.ofSettings st).files s.vantage none sub).outcome with
          | error e => exact ⟨_, rfl⟩
          | ok files =>
              dsimp only
              rw [Act.exec_bind, Act.exec_setDisk]
              dsimp only
              rw [Act.exec_bind, Act.exec_perform]
              cases hrun : (Batch.fixFiles (.ofResolver r parse) (holds .dryRun ws) s.vantage files).1.outcome with
              | error e => exact ⟨_, rfl⟩
              | ok reports => exact ⟨_, rfl⟩

/-- The files of a run of fixes are spelled as paths are, and no two of them have one true path. -/
theorem of_worklist {r : Resolver} {files : List Path} (hnamed : s.disk.Named) (hhome : ∀ n ∈ s.cwd, Path.IsName n)
    (hsub : ∀ p ∈ sub, ∀ n ∈ p.names, Path.IsName n) (h : worklist ws sub s = .ok (r, files)) :
    (∀ p ∈ files, ∀ n ∈ p.names, Path.IsName n) ∧ files.Pairwise (Batch.Distinct s.vantage) := by
  rw [worklist] at h
  cases hst : settingsIn ws s with
  | error e =>
      rw [hst] at h
      cases h
  | ok st =>
      simp only [hst] at h
      cases hr : (Resolver.ofManifest s.vantage st.root).outcome with
      | error e =>
          rw [hr] at h
          cases h
      | ok r' =>
          simp only [hr] at h
          obtain ⟨found, hfiles, heq⟩ := map_eq_ok_iff.mp h
          cases heq
          refine ⟨fun p hp => ?_, FileList.pairwise_of_files hfiles⟩
          rcases FileList.of_mem_files_in hfiles p hp with ⟨hp, -⟩ | ⟨hp, -⟩
          · exact hsub p hp
          · exact (FileList.isMet_of_mem_sources hnamed (Project.isName_of_mem_root hhome hst) hp).names

variable (hparse : ∀ text, (parse text).WellFormed text.toList)

include hparse in
theorem fix_rehearses (hnamed : s.disk.Named) (hcwd : s.disk.Solid s.cwd) (hhome : ∀ n ∈ s.cwd, Path.IsName n)
    (ws : List Word) (hsub : ∀ p ∈ sub, ∀ n ∈ p.names, Path.IsName n) :
    Rehearses s ((fix parse (.flag .dryRun :: ws) sub).exec s) ((fix parse ws sub).exec s) := by
  have hv : s.vantage.Proper := ⟨hnamed, hcwd⟩
  obtain ⟨notes, hdry⟩ := exec_fix parse (.flag .dryRun :: ws) sub s
  obtain ⟨notes', hreal⟩ := exec_fix parse ws sub s
  have hsame : worklist (.flag .dryRun :: ws) sub s = worklist ws sub s := rfl
  have hflag : holds .dryRun (.flag .dryRun :: ws) = true := rfl
  rw [hsame, hflag] at hdry
  rw [hdry, hreal]
  cases hwork : worklist ws sub s with
  | error e => exact .silent rfl rfl rfl rfl
  | ok work =>
      obtain ⟨r, files⟩ := work
      obtain ⟨hnames, hdistinct⟩ := of_worklist hnamed hhome hsub hwork
      obtain ⟨hrun, hrehearsal⟩ := Batch.fixFiles_foretold hparse hv r (holds .dryRun ws) hnames
        (hdistinct.imp Batch.Distinct.apart)
      obtain ⟨-, hkept⟩ := Batch.fixFiles_rehearsed hparse hv r hnames
      simp only [hrun, hrehearsal, hkept]
      obtain ⟨hlines, htotals⟩ := Report.fixLines_foretell (holds .dryRun ws)
        (files.map fun p => (Batch.plan r parse (holds .dryRun ws) s.vantage p).1)
      refine ⟨rfl, ?_, _, _, rfl, rfl, hlines, htotals⟩
      rw [statusOfFixes, statusOfFixes, List.any_map]
      rfl

theorem isName_of_pathWord {words : List String} {paths : List Path} (h : words.mapM pathWord = .ok paths) :
    ∀ p ∈ paths, ∀ n ∈ p.names, Path.IsName n := by
  induction words generalizing paths with
  | nil =>
      cases h
      exact List.forall_mem_nil _
  | cons word words ih =>
      obtain ⟨p, rest, hword, hrest, rfl⟩ := List.forall₂_cons_left_iff.mp (mapM_eq_ok_iff.mp h)
      refine List.forall_mem_cons.mpr ⟨fun n hn => ?_, ih (mapM_eq_ok_iff.mpr hrest)⟩
      rw [pathWord] at hword
      split_ifs at hword
      cases hword
      exact Path.isName_of_mem_ofString hn

theorem readWords_dryRun (args : List String) :
    readWords fixKeys true ("--dry-run" :: args) = (readWords fixKeys true args).map (.flag .dryRun :: ·) := by
  have hmark : ¬ "--dry-run" = "--" := by decide
  have hoption : isOption "--dry-run" = true := by decide
  have hread : readOption fixKeys "--dry-run".toList = some (.done [.flag .dryRun]) := by decide
  rw [readWords, if_neg hmark, if_pos hoption, hread]
  rfl

include hparse in
theorem withPath_rehearses (hnamed : s.disk.Named) (hcwd : s.disk.Solid s.cwd) (hhome : ∀ n ∈ s.cwd, Path.IsName n)
    (args : List String) :
    Rehearses s ((withPath fixKeys ("--dry-run" :: args) (fix parse)).exec s)
      ((withPath fixKeys args (fix parse)).exec s) := by
  rw [withPath, withPath, readWords_dryRun]
  cases readWords fixKeys true args with
  | none => exact .refl _ s
  | some ws =>
      have hhelp : holds .help (.flag .dryRun :: ws) = holds .help ws := rfl
      have hplain : plainWords (.flag .dryRun :: ws) = plainWords ws := rfl
      have hroot : valuesOf .root (.flag .dryRun :: ws) = valuesOf .root ws := rfl
      simp only [Option.map_some, hhelp, hplain, hroot]
      split_ifs with hhelp' hcount
      · exact .refl _ s
      · simp only [Act.exec_bind, Act.exec_demand]
        cases hpaths : ((plainWords ws).take 1).mapM pathWord with
        | error e => exact .refl _ s
        | ok paths =>
            cases (valuesOf .root ws).mapM pathWord with
            | error e => exact .refl _ s
            | ok roots =>
                refine fix_rehearses hparse hnamed hcwd hhome ws fun p hp => ?_
                exact isName_of_pathWord hpaths p (List.mem_of_head? hp)
      · simp only [Act.exec_bind, Act.exec_demand]
        cases ((plainWords ws).take 1).mapM pathWord with
        | error e => exact .refl _ s
        | ok paths => cases (valuesOf .root ws).mapM pathWord <;> exact .refl _ s

theorem command_fix (parse : String → Tree) (args : List String) (events : List Event) :
    command parse ("fix" :: args) events = withPath fixKeys args (fix parse) := by
  have hmark : ¬ "fix" = "--" := by decide
  have hoption : isOption "fix" = false := by decide
  have hwords : readWords mainKeys false ("fix" :: args) = some (("fix" :: args).map .plain) := by
    rw [readWords, if_neg hmark, hoption]
    rfl
  have hplain : plainWords (("fix" :: args).map .plain) = "fix" :: args := by
    rw [plainWords, List.filterMap_map]
    exact List.filterMap_some
  have hhelp : holds .help (("fix" :: args).map .plain) = false := by
    rw [holds, Bool.eq_false_iff, Ne, List.contains_iff_mem, List.mem_map]
    rintro ⟨word, -, hword⟩
    cases hword
  rw [command, hwords]
  simp only [hhelp, hplain]
  rfl

def endingOf : Except Failure Nat → Ending
  | .ok code => .status code
  | .error e => .failed e

theorem run_eq (parse : String → Tree) (args : List String) (events : List Event) (s : Scene) :
    run parse args events s =
      (endingOf ((command parse args events).exec s).1, ((command parse args events).exec s).2) := by
  rw [run, Act.exec]
  rcases (command parse args events).run.run s with ⟨code | e, s'⟩ <;> rfl

/-- A rehearsal foretells the run. Over files that are apart it leaves the disk as it is and gives, path by path, the
reports of the run with the same edits and the same errors, but that nothing is written, whereas the run writes
exactly the files that have edits. A command line that fixes files, whatever its other arguments are, ends with and
without a rehearsal alike, and its lines name the same files and the same counts. -/
theorem rehearsal_foretells (hparse : ∀ text, (parse text).WellFormed text.toList) (hnamed : s.disk.Named)
    (hcwd : s.disk.Solid s.cwd) (hhome : ∀ n ∈ s.cwd, Path.IsName n) :
    (∀ (resolver : Resolver) (paths : List String),
      let ps := paths.map Path.ofString
      let runs := fun dry => Batch.fixFiles (.ofResolver resolver parse) dry s.vantage ps
      ps.Pairwise (Batch.Distinct s.vantage) → (runs true).2 = s.disk ∧
        ∃ reports, (runs false).1.outcome = .ok reports ∧
          (runs true).1.outcome = .ok (reports.map FixReport.rehearsed) ∧ reports.map FixReport.path = ps ∧
          ∀ report ∈ reports, report.written = true ↔ report.edits ≠ []) ∧
    ∀ (args : List String) (events : List Event),
      Rehearses s (run parse ("fix" :: "--dry-run" :: args) events s) (run parse ("fix" :: args) events s) := by
  constructor
  · intro resolver paths ps runs hdistinct
    have hv : s.vantage.Proper := ⟨hnamed, hcwd⟩
    have hps : ∀ p ∈ ps, ∀ n ∈ p.names, Path.IsName n := by
      intro p hp n hn
      obtain ⟨text, -, rfl⟩ := List.mem_map.mp hp
      exact Path.isName_of_mem_ofString hn
    obtain ⟨hrun, hrehearsal⟩ := Batch.fixFiles_foretold hparse hv resolver false hps
      (hdistinct.imp Batch.Distinct.apart)
    obtain ⟨-, hkept⟩ := Batch.fixFiles_rehearsed hparse hv resolver hps
    obtain ⟨reports, houtcome, hcourse, -⟩ := Batch.exists_course hparse hv resolver false hps
    obtain rfl : reports = _ := Except.ok.inj (houtcome.symm.trans hrun)
    refine ⟨hkept, _, hrun, hrehearsal, hcourse.reported, fun report hreport => ?_⟩
    obtain ⟨p, -, rfl⟩ := List.mem_map.mp hreport
    exact Batch.written_plan_iff resolver parse s.vantage p
  · intro args events
    have h := withPath_rehearses hparse hnamed hcwd hhome args
    rw [run_eq, run_eq, command_fix, command_fix]
    exact ⟨h.disk, congrArg endingOf h.ending, h.lines⟩

/-- Two short names in the root of a disk lead to different files. -/
theorem distinct_names {files : List (String × Octets)} {a b : String} (ha : Path.IsShort a) (hb : Path.IsShort b)
    (hne : a ≠ b) : Batch.Distinct ⟨.flat files, []⟩ (Path.ofPlace [a]) (Path.ofPlace [b]) := by
  intro k hka hkb
  rw [Vantage.resolve_name ha (Disk.not_link_flat _ _)] at hka
  rw [Vantage.resolve_name hb (Disk.not_link_flat _ _)] at hkb
  have heq := congrArg Path.names (Except.ok.inj (hka.trans hkb.symm))
  exact hne (List.singleton_inj.mp heq)

/-- A source that declares another class than its path says, and a file of no language. -/
theorem rehearsal_foretells_pair :
    let s : Scene :=
      ⟨.flat [("A.php", Utf8.encode "<?php class B \x7b\x7d"), ("b.txt", Utf8.encode "b")], [], [], [], [], none⟩
    let ps := ["/A.php", "/b.txt"].map Path.ofString
    let runs := fun dry => Batch.fixFiles (.ofResolver (.table [("/A.php", ⟨"C", "A"⟩)]) Batch.soundParse) dry s.vantage ps
    (∀ text, (Batch.soundParse text).WellFormed text.toList) ∧ s.disk.Named ∧ s.disk.Solid s.cwd ∧
    (∀ n ∈ s.cwd, Path.IsName n) ∧ ps.Pairwise (Batch.Distinct s.vantage) ∧
    ((runs true).2 = s.disk ∧
      ∃ reports, (runs false).1.outcome = .ok reports ∧
        (runs true).1.outcome = .ok (reports.map FixReport.rehearsed) ∧ reports.map FixReport.path = ps ∧
        ∀ report ∈ reports, report.written = true ↔ report.edits ≠ []) ∧
    Rehearses s (run Batch.soundParse ["fix", "--dry-run"] [] s) (run Batch.soundParse ["fix"] [] s) := by
  intro s ps runs
  have hshort : Path.IsShort "A.php" ∧ Path.IsShort "b.txt" :=
    ⟨⟨⟨⟨by decide, by decide, by decide⟩, by decide, by decide⟩, by decide +kernel⟩,
      ⟨⟨⟨by decide, by decide, by decide⟩, by decide, by decide⟩, by decide +kernel⟩⟩
  have hnamed : s.disk.Named := Disk.named_flat
    (List.forall_mem_cons.mpr ⟨hshort.1.toIsEntry, List.forall_mem_singleton.mpr hshort.2.toIsEntry⟩)
  have hcwd : s.disk.Solid s.cwd := Disk.solid_nil _
  have hps : ps = ["A.php", "b.txt"].map fun n => Path.ofPlace [n] := by decide +kernel
  have hdistinct : ps.Pairwise (Batch.Distinct s.vantage) := by
    rw [hps]
    exact List.pairwise_pair.mpr (distinct_names hshort.1 hshort.2 (by decide))
  have h := rehearsal_foretells Batch.wellFormed_soundParse hnamed hcwd (List.forall_mem_nil _)
  exact ⟨Batch.wellFormed_soundParse, hnamed, hcwd, List.forall_mem_nil _, hdistinct,
    h.1 (.table [("/A.php", ⟨"C", "A"⟩)]) ["/A.php", "/b.txt"] hdistinct, h.2 [] []⟩

end CommandLine

end Host

end Namesake
