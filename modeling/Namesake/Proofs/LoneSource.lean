import Namesake.Proofs.Action
import Namesake.Proofs.FlatDisk
import Namesake.Proofs.Incremental

/-! Projects at the root of a disk with one source and files of other kinds. What a check of such a project
says comes down to the verdict on the one source, and whether it passes over it to what the record says. -/

namespace Namesake.Host

open Text Json Syntax CommandLine

/-- A project with one source in its root, among other files that are no sources. -/
structure LoneSource where
  name : String
  data : Octets
  others : List (String × Octets)
  short : Path.IsShort name
  source : Language.isSource (Path.ofPlace [name]) = true
  apart : ∀ f ∈ others, Path.IsShort f.1 ∧ Language.isSource (Path.ofPlace [f.1]) = false

/-- What a check in the root of a disk works on if nothing is said. -/
def bareSettings : Settings :=
  ⟨Path.ofPlace [], [], Settings.defaultExcluded, false, Settings.defaultCacheFile⟩

theorem settingsIn_bare {ws : List Word} {s : Scene} (hws : ∀ key, valuesOf key ws = []) (hcwd : s.cwd = [])
    (henv : s.environment = []) : settingsIn ws s = .ok bareSettings := by
  have hyes : Settings.isYes "" = false := by decide
  have hdot : Path.ofString "." = ⟨.here, []⟩ := by decide
  rw [settingsIn, hws, hws, hws, hcwd, henv]
  show Except.map _ (Vantage.resolve ⟨s.disk, []⟩ (Path.ofString ".")) = _
  rw [hdot, Vantage.resolve_root]
  show Except.ok _ = _
  simp [bareSettings, Settings.patterns, Json.Fields.get?, hyes]

theorem cachePath_bare : bareSettings.cachePath = Path.ofPlace [Settings.defaultCacheFile] := by
  decide

theorem isShort_record : Path.IsShort Settings.defaultCacheFile := by decide

theorem isShort_manifest : Path.IsShort Resolver.manifestName := by decide

theorem join_manifest :
    (Path.ofPlace []).join (Path.ofString Resolver.manifestName) = Path.ofPlace [Resolver.manifestName] := by
  decide

/-- Without a manifest there are no rules. -/
theorem ofManifest_of_free {d : Disk} (h : d.find? [Resolver.manifestName] = none) :
    (Resolver.ofManifest ⟨d, []⟩ (Path.ofPlace [])).outcome = .ok (.autoload (Path.ofPlace []) []) := by
  rw [Resolver.ofManifest]
  dsimp only
  rw [join_manifest, Vantage.read_free isShort_manifest h]
  show Resolver.ofRules _ _ [] = _
  rw [Resolver.ofRules]
  dsimp only [bind, Except.bind]
  rw [Path.ofPlace, Vantage.resolve_root]
  rfl

theorem save_bare (f : Freshness) {d : Disk}
    (h : ∀ m, d.find? [Settings.defaultCacheFile] = some m → ∃ data, m = .file data) :
    f.save ⟨d, []⟩ bareSettings.cachePath = .ok (d.put [Settings.defaultCacheFile] (.file f.content)) := by
  rw [cachePath_bare, Freshness.save, Vantage.write_name isShort_record h]

namespace LoneSource

variable (l : LoneSource)

def files : List (String × Octets) :=
  (l.name, l.data) :: l.others

def path : Path :=
  Path.ofPlace [l.name]

def vantage : Vantage :=
  ⟨.flat l.files, []⟩

theorem isMet : l.path.IsMet :=
  ⟨rfl, List.forall_mem_singleton.mpr l.short.toIsName, l.source⟩

theorem holds : l.vantage.Holds l.path l.path l.data := by
  refine Vantage.holds_file l.short ?_
  rw [Disk.find?_flat, files, List.find?_cons, decide_eq_true rfl]
  rfl

theorem named : l.vantage.disk.Named := by
  refine Disk.named_flat (List.forall_mem_cons.mpr ⟨l.short.toIsEntry, ?_⟩)
  exact fun f hf => (l.apart f hf).1.toIsEntry

/-- Whatever is read from a source is read from the one source. -/
theorem eq_of_read {p : Path} {data : Octets} (hp : Language.isSource p = true) (h : l.vantage.read p = .ok data) :
    data = l.data := by
  obtain ⟨n, hmem, hn⟩ := Disk.mem_of_read_flat hp (Vantage.read_eq_ok h)
  rcases List.mem_cons.mp hmem with heq | hmem
  · exact (Prod.mk.inj heq).2
  · rw [(l.apart _ hmem).2] at hn
    cases hn

theorem sources {list : FileList} (hlist : list.root = Path.ofPlace []) :
    list.sources (.flat l.files) = [l.path] := by
  have hshort : ∀ f ∈ l.files, Path.IsShort f.1 :=
    List.forall_mem_cons.mpr ⟨l.short, fun f hf => (l.apart f hf).1⟩
  have hnone : (l.others.map fun f => Path.ofPlace [f.1]).filter Language.isSource = [] := by
    refine List.filter_eq_nil_iff.mpr fun p hp => ?_
    obtain ⟨f, hf, rfl⟩ := List.mem_map.mp hp
    rw [(l.apart f hf).2]
    exact Bool.false_ne_true
  have hperm := FileList.sources_flat hlist hshort
  rwa [files, List.map_cons, List.filter_cons_of_pos l.source, hnone, List.perm_singleton] at hperm

/-- The one source is listed, unless it is known to be right. -/
theorem files_eq (hadmits : (FileList.ofSettings bareSettings).admits l.path = true) :
    ((FileList.ofSettings bareSettings).files l.vantage none none).outcome = .ok [l.path] ∧
      ∀ known, ((FileList.ofSettings bareSettings).files l.vantage (some known) none).outcome =
        .ok ([l.path].filter (FileList.isStale known l.vantage)) := by
  have hall : ((FileList.ofSettings bareSettings).files l.vantage none none).outcome = .ok [l.path] := by
    rw [FileList.files_none]
    show (FileList.choose _ _ _ [] ((FileList.ofSettings bareSettings).sources (.flat l.files))).map _ = _
    rw [l.sources rfl]
    simp [FileList.choose, l.holds.resolve, hadmits, FileList.Scope.holds, Except.map, Path.sort]
  refine ⟨hall, fun known => ?_⟩
  have hroot : ∀ n ∈ (FileList.ofSettings bareSettings).root.names, Path.IsName n := List.forall_mem_nil _
  rw [FileList.files_stale l.named hroot, hall]
  rfl

variable {parse : String → Tree} {root : Path} {rules : List Rule} {text : String} {ds : List Diagnostic}
  {notes : List Note}

def report (l : LoneSource) (ds : List Diagnostic) : Report :=
  ⟨l.path, ds.map (Batch.locate l.data), none⟩

theorem checkOne_eq (hdata : l.data = Utf8.encode text) (h : verdict parse rules l.path text = .ok (ds, notes)) :
    Batch.checkOne (.ofResolver (.autoload root rules) parse) l.vantage l.path = .ok (l.report ds, notes) := by
  rw [Batch.checkOne, Batch.checkFile_eq l.named l.isMet l.holds, hdata, Utf8.decode?_encode]
  dsimp only
  rw [h, report, hdata]
  rfl

/-- A check reports the verdict on the source, unless it passes over it. -/
theorem examine_eq (hadmits : (FileList.ofSettings bareSettings).admits l.path = true)
    (hdata : l.data = Utf8.encode text) (h : verdict parse rules l.path text = .ok (ds, notes)) :
    examine parse bareSettings (.autoload root rules) l.vantage none = .ok [l.report ds] ∧
      ∀ known, examine parse bareSettings (.autoload root rules) l.vantage (some known) =
        .ok (if FileList.isStale known l.vantage l.path then [l.report ds] else []) := by
  obtain ⟨hall, hpart⟩ := l.files_eq hadmits
  have hone : (Batch.checkFiles (.ofResolver (.autoload root rules) parse) l.vantage [l.path]).outcome =
      .ok [l.report ds] := by
    rw [Batch.checkFiles, l.checkOne_eq hdata h]
    rfl
  constructor
  · rw [examine, examineIn, hall]
    exact hone
  · intro known
    rw [examine, examineIn, hpart]
    by_cases hstale : FileList.isStale known l.vantage l.path = true
    · rw [List.filter_cons_of_pos hstale, if_pos hstale]
      exact hone
    · rw [List.filter_cons_of_neg hstale, if_neg hstale]
      rfl

def learnt : Freshness :=
  ⟨[(l.path.render, Digest.sha256 l.data)]⟩

theorem isStale_empty : FileList.isStale Freshness.empty l.vantage l.path = true := by
  rw [FileList.isStale, Freshness.isFresh, Freshness.key_of_resolve l.holds.resolve]
  rfl

theorem isStale_learnt : FileList.isStale l.learnt l.vantage l.path = false := by
  have hfresh : l.learnt.isFresh l.vantage l.path = .ok true := by
    rw [Freshness.isFresh, Freshness.key_of_resolve l.holds.resolve]
    dsimp only [bind, Except.bind]
    rw [learnt, Fields.get?, if_pos rfl]
    dsimp only
    rw [Freshness.digestOf, l.holds.read]
    simp only [Except.map, beq_self_eq_true]
    rfl
  rw [FileList.isStale, hfresh]
  rfl

/-- A check that knows the source reports nothing. -/
theorem examine_learnt (hadmits : (FileList.ofSettings bareSettings).admits l.path = true) :
    examine parse bareSettings (.autoload root rules) l.vantage (some l.learnt) = .ok [] := by
  have hfresh : ¬ FileList.isStale l.learnt l.vantage l.path = true := by
    rw [l.isStale_learnt]
    exact Bool.false_ne_true
  rw [examine, examineIn, (l.files_eq hadmits).2, List.filter_cons_of_neg hfresh]
  rfl

theorem settleAll_empty :
    Incremental.settleAll l.vantage Freshness.empty [l.report []] = .ok l.learnt := by
  show (Freshness.mark _ _ l.path).bind _ = _
  rw [Freshness.mark_of_holds _ l.holds]
  rfl

theorem load_learnt {d : Disk} (h : d.find? [Settings.defaultCacheFile] = some (.file l.learnt.content)) :
    (Freshness.load ⟨d, []⟩ bareSettings.cachePath).outcome = .ok l.learnt := by
  rw [cachePath_bare, Freshness.load_of_read (Vantage.holds_file isShort_record h).read, learnt, sortRows,
    List.mergeSort_singleton]
  rfl

/-! ### Checks -/

variable {s : Scene}

/-- A check without rules finds nothing, and the record then knows the source. -/
theorem check_learns (parse : String → Tree) (hdisk : s.disk = .flat l.files) (hcwd : s.cwd = [])
    (henv : s.environment = []) (hadmits : (FileList.ofSettings bareSettings).admits l.path = true)
    (hdata : l.data = Utf8.encode text) (hmanifest : Resolver.manifestName ∉ l.files.map Prod.fst)
    (hrecord : Settings.defaultCacheFile ∉ l.files.map Prod.fst) :
    ∃ printed notes, (check parse [.flag .incremental] none).exec s =
      (.ok success, { s with
        printed := printed
        notes := notes
        disk := .flat (l.files ++ [(Settings.defaultCacheFile, l.learnt.content)]) }) := by
  obtain ⟨found, hverdict⟩ := verdict_nil parse l.path text
  have hv : (⟨s.disk, s.cwd⟩ : Vantage) = l.vantage := by rw [hdisk, hcwd, vantage]
  have hfree := Disk.find?_flat_of_not_mem hrecord
  have hst : settingsIn [.flag .incremental] s = .ok bareSettings := settingsIn_bare (fun key => rfl) hcwd henv
  have hr : (Resolver.ofManifest ⟨s.disk, s.cwd⟩ bareSettings.root).outcome = .ok (.autoload (Path.ofPlace []) []) := by
    rw [hv]
    exact ofManifest_of_free (Disk.find?_flat_of_not_mem hmanifest)
  have hload : (Freshness.load ⟨s.disk, s.cwd⟩ bareSettings.cachePath).outcome = .ok Freshness.empty := by
    rw [hv, vantage, cachePath_bare, Freshness.load, Vantage.read_free isShort_record hfree]
    rfl
  have hreports : examine parse bareSettings (.autoload (Path.ofPlace []) []) ⟨s.disk, s.cwd⟩
      (some Freshness.empty) = .ok [l.report []] := by
    rw [hv, (l.examine_eq hadmits hdata hverdict).2, if_pos l.isStale_empty]
  have hsettle : Incremental.settleAll ⟨s.disk, s.cwd⟩ Freshness.empty [l.report []] = .ok l.learnt := by
    rw [hv, l.settleAll_empty]
  have hsave : l.learnt.save ⟨s.disk, s.cwd⟩ bareSettings.cachePath =
      .ok (.flat (l.files ++ [(Settings.defaultCacheFile, l.learnt.content)])) := by
    rw [hv, vantage, save_bare, Disk.put_flat hrecord]
    intro m hm
    rw [hfree] at hm
    cases hm
  obtain ⟨notes, hexec⟩ := exec_check_incremental hst hr rfl hload hreports hsettle hsave
  exact ⟨_, notes, hexec⟩

/-- Where the record knows the source a check has nothing to report, whatever the rules say by now. -/
theorem survey_learnt (parse : String → Tree) (hdisk : s.disk = .flat l.files) (hcwd : s.cwd = [])
    (henv : s.environment = []) (hadmits : (FileList.ofSettings bareSettings).admits l.path = true)
    (hr : (Resolver.ofManifest l.vantage (Path.ofPlace [])).outcome = .ok (.autoload root rules))
    (hrecord : (Disk.flat l.files).find? [Settings.defaultCacheFile] = some (.file l.learnt.content)) :
    survey parse [.flag .incremental] none s = .ok (bareSettings, some l.learnt, []) := by
  have hst : settingsIn [.flag .incremental] s = .ok bareSettings := settingsIn_bare (fun key => rfl) hcwd henv
  have hinc : prevails .incremental .complete [.flag .incremental] = true := rfl
  have hr' : (Resolver.ofManifest l.vantage bareSettings.root).outcome = .ok (.autoload root rules) := hr
  have hreports : examineIn parse bareSettings (.autoload root rules) l.vantage (some l.learnt) none = .ok [] :=
    l.examine_learnt hadmits
  have hv : (⟨s.disk, s.cwd⟩ : Vantage) = l.vantage := by rw [hdisk, hcwd, vantage]
  have hload : (Freshness.load l.vantage bareSettings.cachePath).outcome = .ok l.learnt := l.load_learnt hrecord
  rw [survey, hst, hv]
  dsimp only
  rw [hr']
  dsimp only
  rw [if_pos hinc, hload]
  dsimp only
  rw [hreports]
  rfl

/-- Where the record knows the source a check passes over it. -/
theorem check_passes_over (parse : String → Tree) (hdisk : s.disk = .flat l.files) (hcwd : s.cwd = [])
    (henv : s.environment = []) (hadmits : (FileList.ofSettings bareSettings).admits l.path = true)
    (hr : (Resolver.ofManifest l.vantage (Path.ofPlace [])).outcome = .ok (.autoload root rules))
    (hrecord : (Disk.flat l.files).find? [Settings.defaultCacheFile] = some (.file l.learnt.content)) :
    ((check parse [.flag .incremental] none).exec s).1 = .ok success := by
  have hv : (⟨s.disk, s.cwd⟩ : Vantage) = l.vantage := by rw [hdisk, hcwd, vantage]
  have hsettle : Incremental.settleAll l.vantage l.learnt [] = .ok l.learnt := rfl
  obtain ⟨d, hsave⟩ : ∃ d, l.learnt.save l.vantage bareSettings.cachePath = .ok d := by
    rw [vantage, save_bare]
    · exact ⟨_, rfl⟩
    · intro m hm
      rw [hrecord] at hm
      cases hm
      exact ⟨_, rfl⟩
  obtain ⟨notes, hexec⟩ := exec_check_of_survey parse [.flag .incremental] none s
  rw [hexec, l.survey_learnt parse hdisk hcwd henv hadmits hr hrecord]
  dsimp only [settled]
  rw [hv, hsettle]
  dsimp only [Except.bind]
  rw [hsave]
  rfl

/-- A check that looks at the source ends with the status that the verdict on it asks for. -/
theorem check_looks (hdisk : s.disk = .flat l.files) (hcwd : s.cwd = []) (henv : s.environment = [])
    (hadmits : (FileList.ofSettings bareSettings).admits l.path = true) (hdata : l.data = Utf8.encode text)
    (hr : (Resolver.ofManifest l.vantage (Path.ofPlace [])).outcome = .ok (.autoload root rules))
    (h : verdict parse rules l.path text = .ok (ds, notes)) :
    ((check parse [] none).exec s).1 = .ok (if ds = [] then success else trouble) := by
  have hv : (⟨s.disk, s.cwd⟩ : Vantage) = l.vantage := by rw [hdisk, hcwd, vantage]
  have hst : settingsIn [] s = .ok bareSettings := settingsIn_bare (fun key => rfl) hcwd henv
  have hstatus : statusOf [l.report ds] = if ds = [] then success else trouble := by
    simp [statusOf, Report.total, Report.rows, report]
  obtain ⟨notes', hexec⟩ := exec_check_complete hst (hv ▸ hr) rfl (hv ▸ (l.examine_eq hadmits hdata h).1)
  rw [hexec, hstatus]

end LoneSource

end Namesake.Host
