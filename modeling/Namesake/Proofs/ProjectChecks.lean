import Mathlib.Logic.Relation
import Mathlib.Data.Set.Function
import Namesake.Php
import Namesake.Proofs.LoneSource

/-! A project that is checked again and again while its files change. `Step` is what may happen in between:
any change of the disk that leaves the file of the record to the checks, and checks of any kind. In every
scene that is reached this way the record vouches only for files that a check would find right, as long as the
manifest declares the same rules whenever it is read, so a check that passes over known files says what
one that looks at all files says. The verdict on a file depends on these rules too, and the record does not:
a manifest that changes leaves it stale. -/

namespace Namesake.Host

open Text Json Syntax CommandLine

abbrev Scene.vantage (s : Scene) : Vantage :=
  ⟨s.disk, s.cwd⟩

/-- A project over time: its root, the rules that its manifest declares, and the octets that are ever read
from a source. -/
structure Project where
  root : Path
  rules : List Rule
  contents : Set Octets

namespace Project

variable {parse : String → Tree} {P : Project} {s s' : Scene}

def record (P : Project) (s : Scene) : Path :=
  P.root.join (Path.ofString ((Json.Fields.get? Settings.cacheVariable s.environment).getD Settings.defaultCacheFile))

/-- The scene shows the project: names are such as a system allows, sources hold what they are said to hold,
and the manifest, where it can be read, declares the rules. -/
structure Shows (P : Project) (s : Scene) : Prop where
  named : s.disk.Named
  home : ∀ n ∈ s.cwd, Path.IsName n
  contents : ∀ p data, Language.isSource p = true → s.vantage.read p = .ok data → data ∈ P.contents
  rules : ∀ r, (Resolver.ofManifest s.vantage P.root).outcome = .ok r → ∃ root, r = .autoload root P.rules

/-- The options are about the project. -/
def IsAbout (P : Project) (ws : List Word) (s : Scene) : Prop :=
  ∀ st, settingsIn ws s = .ok st → st.root = P.root

/-- What may happen to the project. -/
inductive Step (parse : String → Tree) (P : Project) : Scene → Scene → Prop
  | change {s : Scene} (d : Disk) (h : d.read s.cwd (P.record s) = s.disk.read s.cwd (P.record s)) :
      Step parse P s { s with disk := d }
  | check {s : Scene} (ws : List Word) (hs : P.Shows s) (hws : P.IsAbout ws s) :
      Step parse P s ((check parse ws none).exec s).2

/-- Some file of the project with this true path and digest was found right. -/
def Vouched (parse : String → Tree) (P : Project) (path digest : String) : Prop :=
  ∃ v p q data root, v.disk.Named ∧ p.IsMet ∧ v.Holds p q data ∧ data ∈ P.contents ∧
    Batch.FoundRight (.ofResolver (.autoload root P.rules) parse) v p ∧ path = q.render ∧
    digest = Digest.sha256 data

/-- All that the record says in a scene has been found right. -/
def Trusted (parse : String → Tree) (P : Project) (s : Scene) : Prop :=
  ∀ f, (Freshness.load s.vantage (P.record s)).outcome = .ok f →
    ∀ entry ∈ f.digests, Vouched parse P entry.1 entry.2

theorem of_settingsIn {ws : List Word} {st : Settings} (h : settingsIn ws s = .ok st) :
    (∃ text, s.vantage.resolve (Path.ofString text) = .ok st.root) ∧
      st.cacheFile = (Json.Fields.get? Settings.cacheVariable s.environment).getD Settings.defaultCacheFile := by
  rw [settingsIn] at h
  cases hword : (valuesOf .root ws).getLast?.mapM pathWord with
  | error e =>
      rw [hword] at h
      cases h
  | ok root =>
      simp only [hword, Settings.make] at h
      obtain ⟨p, hres, rfl⟩ := map_eq_ok_iff.mp h
      exact ⟨⟨_, hres⟩, rfl⟩

theorem cachePath_eq {ws : List Word} {st : Settings} (hst : settingsIn ws s = .ok st)
    (hroot : st.root = P.root) : st.cachePath = P.record s := by
  rw [Settings.cachePath, record, hroot, (of_settingsIn hst).2]

theorem isName_of_mem_root {ws : List Word} {st : Settings} (hhome : ∀ n ∈ s.cwd, Path.IsName n)
    (hst : settingsIn ws s = .ok st) : ∀ n ∈ st.root.names, Path.IsName n := by
  obtain ⟨⟨text, hres⟩, -⟩ := of_settingsIn hst
  exact Vantage.isName_of_resolve hhome (fun n hn => Path.isName_of_mem_ofString hn) hres

/-! ### A known file would be found right -/

/-- What the record vouches for would be found right now. -/
theorem foundRight_of_vouched (hinj : Set.InjOn Digest.sha256 P.contents) (hs : P.Shows s) {p q : Path}
    {data : Octets} {root : Path} (hp : p.IsMet) (h : s.vantage.Holds p q data)
    (hvouched : Vouched parse P q.render (Digest.sha256 data)) :
    Batch.FoundRight (.ofResolver (.autoload root P.rules) parse) s.vantage p := by
  obtain ⟨v, p', q', data', root', hnamed, hp', h', hmem', ⟨notes, hright⟩, hpath, hdigest⟩ := hvouched
  obtain rfl : data = data' := hinj (hs.contents p data hp.source h.read) hmem' hdigest
  have hq := (Vantage.resolve_idem hs.named (.inl hp.absolute) h.read h.resolve).1
  have hq' := (Vantage.resolve_idem hnamed (.inl hp'.absolute) h'.read h'.resolve).1
  obtain rfl : q = q' := by
    rw [← Path.ofString_render fun n hn => (hq.2 n hn).toIsName, hpath,
      Path.ofString_render fun n hn => (hq'.2 n hn).toIsName]
  have hcongr := @Batch.checkFile_congr s.vantage v p p' q data parse root root' P.rules hs.named hnamed hp hp' h h'
  rw [hright] at hcongr
  cases hfile : Batch.checkFile (.ofResolver (.autoload root P.rules) parse) s.vantage p with
  | error e =>
      rw [hfile] at hcongr
      cases hcongr
  | ok found =>
      obtain ⟨⟨path, findings, error⟩, notes'⟩ := found
      obtain ⟨rfl, rfl⟩ := Batch.path_of_checkFile hfile
      rw [hfile] at hcongr
      simp only [Except.map, Except.ok.injEq, Prod.mk.injEq] at hcongr
      obtain ⟨rfl, rfl⟩ := hcongr
      exact ⟨_, hfile⟩

/-- Passing over files by a record that can be trusted leaves out reports in which nothing was found. -/
theorem examine_incremental (hinj : Set.InjOn Digest.sha256 P.contents) (hs : P.Shows s)
    (htrust : Trusted parse P s) {ws : List Word} {st : Settings} {root : Path} {known : Freshness}
    (hst : settingsIn ws s = .ok st) (hroot : st.root = P.root)
    (hload : (Freshness.load s.vantage st.cachePath).outcome = .ok known) :
    ∃ keep : Report → Bool,
      examine parse st (.autoload root P.rules) s.vantage (some known) =
        (examine parse st (.autoload root P.rules) s.vantage none).map (·.filter keep) ∧
      ∀ all, examine parse st (.autoload root P.rules) s.vantage none = .ok all →
        ∀ report ∈ all, keep report = false → report.findings = [] ∧ report.error = none := by
  rw [cachePath_eq hst hroot] at hload
  have hnames := isName_of_mem_root hs.home hst
  have hright (found : List Path) (hfound : ((FileList.ofSettings st).files s.vantage none none).outcome = .ok found) :
      ∀ p ∈ found, FileList.isStale known s.vantage p = false →
        Batch.FoundRight (.ofResolver (.autoload root P.rules) parse) s.vantage p := by
    intro p hp hfresh
    obtain ⟨hsource, q, hq⟩ := FileList.of_mem_files hfound p hp
    have hmet : p.IsMet := FileList.isMet_of_mem_sources hs.named hnames hsource
    obtain ⟨data, hread, hentry⟩ := (FileList.isStale_eq_false_iff known hq).mp hfresh
    exact foundRight_of_vouched hinj hs hmet ⟨hread, hq⟩ (htrust known hload _ (mem_of_get? hentry))
  refine ⟨fun report => FileList.isStale known s.vantage report.path, ?_, fun all hall report hreport hfresh => ?_⟩
  · rw [examine, examine, examineIn, examineIn, FileList.files_stale hs.named hnames]
    cases hfound : ((FileList.ofSettings st).files s.vantage none none).outcome with
    | error e => rfl
    | ok found => exact Batch.checkFiles_filter _ (hright found hfound)
  · obtain ⟨found, hfound, hchecked⟩ := examineIn_eq_ok_iff.mp hall
    obtain ⟨hmem, notes, hone⟩ := Batch.of_mem_checkFiles hchecked report hreport
    obtain ⟨notes', hfile⟩ := hright found hfound report.path hmem hfresh
    rw [Batch.checkOne, hfile] at hone
    obtain ⟨path, findings, error⟩ := report
    cases hone
    exact ⟨rfl, rfl⟩

/-! ### The record stays trustworthy -/

/-- A check leaves the scene as it was, but for what it says, and fails if it went by a record; or it ends with the record
that it has settled in its file. -/
theorem check_cases (parse : String → Tree) (ws : List Word) (sub : Option Path) (s : Scene) :
    ((check parse ws sub).exec s).2.cwd = s.cwd ∧ ((check parse ws sub).exec s).2.environment = s.environment ∧
    (((check parse ws sub).exec s).2.disk = s.disk ∧
        (∀ st known reports, survey parse ws sub s = .ok (st, some known, reports) →
          ∃ e, ((check parse ws sub).exec s).1 = .error e) ∨
      ∃ st known reports k, survey parse ws sub s = .ok (st, some known, reports) ∧
        Incremental.settleAll s.vantage known reports = .ok k ∧
        k.save s.vantage st.cachePath = .ok ((check parse ws sub).exec s).2.disk ∧
        ((check parse ws sub).exec s).1 = .ok (statusOf reports)) := by
  obtain ⟨notes, hcheck⟩ := exec_check_of_survey parse ws sub s
  rw [hcheck]
  cases hsurvey : survey parse ws sub s with
  | error e => exact ⟨rfl, rfl, .inl ⟨rfl, nofun⟩⟩
  | ok found =>
      obtain ⟨st, known, reports⟩ := found
      cases known with
      | none => exact ⟨rfl, rfl, .inl ⟨rfl, nofun⟩⟩
      | some known =>
          dsimp only [settled]
          cases hsettle : Incremental.settleAll s.vantage known reports with
          | error e => exact ⟨rfl, rfl, .inl ⟨rfl, fun _ _ _ _ => ⟨e, rfl⟩⟩⟩
          | ok k =>
              dsimp only [Except.bind]
              cases hsave : k.save s.vantage st.cachePath with
              | error e => exact ⟨rfl, rfl, .inl ⟨rfl, fun _ _ _ _ => ⟨e, rfl⟩⟩⟩
              | ok d => exact ⟨rfl, rfl, .inr ⟨st, known, reports, k, rfl, hsettle, hsave, rfl⟩⟩

theorem trusted_of_read_eq (h : Trusted parse P s) (henv : s'.environment = s.environment)
    (hread : s'.vantage.read (P.record s) = s.vantage.read (P.record s)) : Trusted parse P s' := by
  have hrecord : P.record s' = P.record s := by rw [record, record, henv]
  intro f hload
  rw [hrecord, Freshness.load_congr hread] at hload
  exact h f hload

/-- What a check of the project reports on are files that are met and can be resolved. -/
theorem isMet_of_examine (hs : P.Shows s) {ws : List Word} {st : Settings} {r : Resolver} {known : Option Freshness}
    {reports : List Report} (hst : settingsIn ws s = .ok st)
    (hreports : examine parse st r s.vantage known = .ok reports) :
    ∀ report ∈ reports, report.path.IsMet ∧ (∃ q, s.vantage.resolve report.path = .ok q) ∧
      ∃ notes, Batch.checkOne (.ofResolver r parse) s.vantage report.path = .ok (report, notes) := by
  intro report hreport
  obtain ⟨found, hfound, hchecked⟩ := examineIn_eq_ok_iff.mp hreports
  obtain ⟨hmem, hone⟩ := Batch.of_mem_checkFiles hchecked report hreport
  obtain ⟨hsource, hres⟩ := FileList.of_mem_files hfound _ hmem
  exact ⟨FileList.isMet_of_mem_sources hs.named (isName_of_mem_root hs.home hst) hsource, hres, hone⟩

theorem listed_of_examine (hs : P.Shows s) {ws : List Word} {st : Settings} {r : Resolver} {known : Option Freshness}
    {reports : List Report} (hst : settingsIn ws s = .ok st)
    (hreports : examine parse st r s.vantage known = .ok reports) :
    ∀ report ∈ reports, (∀ n ∈ report.path.names, Path.IsName n) ∧ (∃ q, s.vantage.resolve report.path = .ok q) ∧
      ∃ notes, Batch.checkOne (.ofResolver r parse) s.vantage report.path = .ok (report, notes) := by
  intro report hreport
  obtain ⟨hmet, hres, hone⟩ := isMet_of_examine hs hst hreports report hreport
  exact ⟨hmet.names, hres, hone⟩

/-- The record that a check settles says nothing but what was vouched for or has just been found right. -/
theorem vouched_of_settleAll (hs : P.Shows s) {ws : List Word} {st : Settings} {root : Path}
    {known k : Freshness} {reports : List Report} (hst : settingsIn ws s = .ok st)
    (hknown : ∀ entry ∈ known.digests, Vouched parse P entry.1 entry.2)
    (hreports : examine parse st (.autoload root P.rules) s.vantage (some known) = .ok reports)
    (hsettle : Incremental.settleAll s.vantage known reports = .ok k) :
    ∀ entry ∈ k.digests, Vouched parse P entry.1 entry.2 := by
  have hlisted := listed_of_examine hs hst hreports
  obtain ⟨k', hk', hentries⟩ := Incremental.exists_settleAll known hlisted
  obtain rfl : k' = k := Except.ok.inj (hk'.symm.trans hsettle)
  intro entry hentry
  rcases hentries entry hentry with hentry | ⟨report, hreport, q, data, hholds, hright, rfl⟩
  · exact hknown entry hentry
  · have hmet := (isMet_of_examine hs hst hreports report hreport).1
    exact ⟨s.vantage, report.path, q, data, root, hs.named, hmet, hholds,
      hs.contents report.path data hmet.source hholds.read, hright, rfl, rfl⟩

/-- What one step preserves. -/
theorem Step.trusted (h : Step parse P s s') (htrust : Trusted parse P s) : Trusted parse P s' := by
  cases h with
  | change d hd =>
      refine trusted_of_read_eq htrust rfl ?_
      rw [Vantage.read, Vantage.read, hd]
  | check ws hs hws =>
      obtain ⟨hcwd, henv, ⟨hdisk, -⟩ | ⟨st, known, reports, k, hsurvey, hsettle, hsave, -⟩⟩ :=
        check_cases parse ws none s
      · refine trusted_of_read_eq htrust henv ?_
        rw [Scene.vantage, hdisk, hcwd]
      · obtain ⟨hst, hload, r, hr, hexamine⟩ := of_survey hsurvey
        have hroot := hws st hst
        rw [hroot] at hr
        obtain ⟨root, rfl⟩ := hs.rules r hr
        rw [cachePath_eq hst hroot] at hload hsave
        have hk := vouched_of_settleAll hs hst (htrust known hload) hexamine hsettle
        have hread := Vantage.read_of_write hsave
        intro f hf entry hentry
        have hrecord : P.record ((CommandLine.check parse ws none).exec s).2 = P.record s := by
          rw [record, record, henv]
        rw [hrecord, Scene.vantage, hcwd] at hf
        exact hk entry (Freshness.mem_of_load hread hf entry hentry)

theorem trusted_of_reachable {s₀ : Scene} (h₀ : Trusted parse P s₀)
    (h : Relation.ReflTransGen (Step parse P) s₀ s) : Trusted parse P s := by
  induction h with
  | refl => exact h₀
  | tail _ hstep ih => exact hstep.trusted ih

/-! ### An incremental check misses nothing -/

/-- In every scene that a project reaches from one without a record, by changes of its files and by checks,
a check that passes over known files fails as one that looks at all files, or shows the same rows and the same
errors and ends with the same status. It differs only where the file of the record itself cannot be read
or written. -/
theorem incremental_check_exact (hinj : Set.InjOn Digest.sha256 P.contents) {s₀ : Scene}
    (hnew : ∀ f, (Freshness.load s₀.vantage (P.record s₀)).outcome = .ok f → f.digests = [])
    (hrun : Relation.ReflTransGen (Step parse P) s₀ s) (hs : P.Shows s) {full part : List Word}
    (hfull : prevails .incremental .complete full = false) (hpart : prevails .incremental .complete part = true)
    (hsame : ∀ key ∈ [Key.root, Key.included, Key.excluded], valuesOf key part = valuesOf key full)
    (hws : P.IsAbout full s) :
    let whole := (check parse full none).exec s
    let brief := (check parse part none).exec s
    (∃ e, (Freshness.load s.vantage (P.record s)).outcome = .error e ∧ brief.1 = .error e) ∨
    (∃ e, whole.1 = .error e ∧ brief.1 = .error e ∧ whole.2.printed = s.printed ∧ brief.2.printed = s.printed) ∨
    ∃ all shown, whole.1 = .ok (statusOf all) ∧ whole.2.printed = s.printed ++ Report.lines all ∧
      brief.2.printed = s.printed ++ Report.lines shown ∧ Report.rows shown = Report.rows all ∧
      Report.errors shown = Report.errors all ∧
      (brief.1 = whole.1 ∨ ∃ k e, Freshness.save k s.vantage (P.record s) = .error e ∧ brief.1 = .error e) := by
  have htrust : Trusted parse P s := trusted_of_reachable (fun f hf entry hentry => by
    rw [hnew f hf] at hentry
    cases hentry) hrun
  have hsettings : settingsIn part s = settingsIn full s := by
    rw [settingsIn, settingsIn, hsame .root (by simp), hsame .included (by simp), hsame .excluded (by simp)]
  obtain ⟨notes, hwhole⟩ := exec_check parse full s
  obtain ⟨notes', hbrief⟩ := exec_check parse part s
  intro whole brief
  rw [show whole = _ from hwhole, show brief = _ from hbrief, hsettings, hfull, hpart]
  cases hst : settingsIn full s with
  | error e => exact .inr (.inl ⟨e, rfl, rfl, rfl, rfl⟩)
  | ok st =>
      have hroot := hws st hst
      dsimp only
      cases hr : (Resolver.ofManifest s.vantage st.root).outcome with
      | error e => exact .inr (.inl ⟨e, rfl, rfl, rfl, rfl⟩)
      | ok r =>
          obtain ⟨root, rfl⟩ := hs.rules r (hroot ▸ hr)
          simp only [if_true, Bool.false_eq_true, if_false]
          obtain ⟨notes, hcomplete⟩ :=
            exec_reportWith_complete parse st (.autoload root P.rules) s.vantage { s with notes := notes }
          rw [hcomplete]
          cases hload : (Freshness.load s.vantage st.cachePath).outcome with
          | error e => exact .inl ⟨e, cachePath_eq hst hroot ▸ hload, rfl⟩
          | ok known =>
              obtain ⟨keep, hexamine, hkeep⟩ := examine_incremental hinj hs htrust hst hroot hload
              obtain ⟨notes', hincremental⟩ :=
                exec_reportWith_incremental parse st (.autoload root P.rules) s.vantage known { s with notes := notes' }
              dsimp only
              rw [hincremental]
              cases hall : examine parse st (.autoload root P.rules) s.vantage none with
              | error e =>
                  rw [hall] at hexamine
                  rw [hexamine]
                  exact .inr (.inl ⟨e, rfl, rfl, rfl, rfl⟩)
              | ok all =>
                  rw [hall] at hexamine
                  obtain ⟨hrows, herrors⟩ := Report.rows_filter (hkeep all hall)
                  have hstatus : statusOf (all.filter keep) = statusOf all := by
                    rw [statusOf, statusOf, Report.total, Report.total, hrows]
                  obtain ⟨k, hsettle, -⟩ :=
                    Incremental.exists_settleAll known (listed_of_examine hs hst hexamine)
                  refine .inr (.inr ⟨all, all.filter keep, rfl, rfl, ?_⟩)
                  rw [hexamine]
                  dsimp only [Except.map]
                  rw [hsettle, hstatus]
                  dsimp only [Except.bind]
                  cases hsave : k.save s.vantage st.cachePath with
                  | error e => exact ⟨rfl, hrows, herrors, .inr ⟨k, e, cachePath_eq hst hroot ▸ hsave, rfl⟩⟩
                  | ok d => exact ⟨rfl, hrows, herrors, .inl rfl⟩

/-- An empty source with nothing beside it. -/
def bare : LoneSource where
  name := "A.php"
  data := []
  others := []
  short := by decide
  source := by decide
  apart := List.forall_mem_nil _

/-- The scene in which nothing has been checked. -/
def start : Scene :=
  ⟨bare.vantage.disk, [], [], [], [], none⟩

theorem admits_bare : (FileList.ofSettings bareSettings).admits bare.path = true := by decide +kernel

/-- The first check of the empty source leaves its record beside it. -/
theorem exists_first : ∃ printed notes, (check Php.parse [.flag .incremental] none).exec start =
    (.ok success, { start with
      printed := printed
      notes := notes
      disk := .flat (bare.files ++ [(Settings.defaultCacheFile, bare.learnt.content)]) }) :=
  @LoneSource.check_learns bare "" start Php.parse rfl rfl rfl admits_bare rfl (by decide) (by decide)

/-- The empty source with its record beside it. -/
def recorded : LoneSource where
  name := "A.php"
  data := []
  others := [(Settings.defaultCacheFile, bare.learnt.content)]
  short := bare.short
  source := bare.source
  apart := List.forall_mem_singleton.mpr ⟨isShort_record, by decide⟩

/-- The project of the empty source, in which no rule is ever declared. -/
def ruleless : Project :=
  ⟨Path.ofPlace [], [], {[]}⟩

theorem shows_ruleless {l : LoneSource} {s : Scene} (hdisk : s.disk = .flat l.files) (hcwd : s.cwd = [])
    (hdata : l.data = []) (hmanifest : Resolver.manifestName ∉ l.files.map Prod.fst) : ruleless.Shows s := by
  have hv : s.vantage = l.vantage := by rw [Scene.vantage, hdisk, hcwd, LoneSource.vantage]
  refine ⟨hdisk ▸ l.named, hcwd ▸ List.forall_mem_nil _, fun p data hp hread => ?_, fun r hr => ?_⟩
  · rw [hv] at hread
    exact (l.eq_of_read hp hread).trans hdata
  · rw [hv] at hr
    exact ⟨_, Except.ok.inj (hr.symm.trans (ofManifest_of_free (Disk.find?_flat_of_not_mem hmanifest)))⟩

theorem isAbout_ruleless {ws : List Word} {s : Scene} (hws : ∀ key, valuesOf key ws = []) (hcwd : s.cwd = [])
    (henv : s.environment = []) : ruleless.IsAbout ws s := by
  intro st hst
  rw [settingsIn_bare hws hcwd henv] at hst
  exact congrArg Settings.root (Except.ok.inj hst).symm

/-- At first there is no record. -/
theorem digests_of_load_start {f : Freshness}
    (hf : (Freshness.load start.vantage (ruleless.record start)).outcome = .ok f) : f.digests = [] := by
  have hfree := @Vantage.read_free bare.vantage.disk [] _ isShort_record (Disk.find?_flat_of_not_mem (by decide))
  have hrecord : ruleless.record start = Path.ofPlace [Settings.defaultCacheFile] := by decide
  rw [hrecord, Freshness.load, show start.vantage = ⟨bare.vantage.disk, []⟩ from rfl, hfree] at hf
  cases hf
  rfl

theorem incremental_check_exact_recorded :
    let s := ((check Php.parse [.flag .incremental] none).exec start).2
    let whole := (check Php.parse [] none).exec s
    let brief := (check Php.parse [.flag .incremental] none).exec s
    (∃ e, (Freshness.load s.vantage (ruleless.record s)).outcome = .error e ∧ brief.1 = .error e) ∨
    (∃ e, whole.1 = .error e ∧ brief.1 = .error e ∧ whole.2.printed = s.printed ∧ brief.2.printed = s.printed) ∨
    ∃ all shown, whole.1 = .ok (statusOf all) ∧ whole.2.printed = s.printed ++ Report.lines all ∧
      brief.2.printed = s.printed ++ Report.lines shown ∧ Report.rows shown = Report.rows all ∧
      Report.errors shown = Report.errors all ∧
      (brief.1 = whole.1 ∨ ∃ k e, Freshness.save k s.vantage (ruleless.record s) = .error e ∧ brief.1 = .error e) := by
  intro s
  have hnew : ∀ f, (Freshness.load start.vantage (ruleless.record start)).outcome = .ok f → f.digests = [] :=
    fun f hf => digests_of_load_start hf
  have hstart : ruleless.Shows start := @shows_ruleless bare start rfl rfl rfl (by decide)
  have hstep : Step Php.parse ruleless start s :=
    .check [.flag .incremental] hstart (isAbout_ruleless (fun key => rfl) rfl rfl)
  obtain ⟨printed, notes, hfirst⟩ := exists_first
  have hs : s = _ := congrArg Prod.snd hfirst
  have hshows : ruleless.Shows s := by
    rw [hs]
    exact @shows_ruleless recorded _ rfl rfl rfl (by decide)
  have habout : ruleless.IsAbout [] s := by
    rw [hs]
    exact isAbout_ruleless (fun key => rfl) rfl rfl
  exact incremental_check_exact (Set.injOn_singleton _ _) hnew (.single hstep) hshows rfl rfl (fun key _ => rfl) habout

/-! ### A manifest that comes to declare a rule -/

/-- A manifest with one rule. -/
def manifest : Octets :=
  Utf8.encode "\x7b\"autoload\": \x7b\"psr-4\": \x7b\"N\": \".\"\x7d\x7d\x7d"

/-- The namespace and the directory of the only rule, if there is only one. -/
def soleRule? : Manifest.Rules → Option (String × String)
  | [(space, [.text dir])] => some (space, dir)
  | _ => none

theorem eq_of_soleRule? {rules : Manifest.Rules} {rule : String × String} (h : soleRule? rules = some rule) :
    rules = [(rule.1, [.text rule.2])] := by
  unfold soleRule? at h
  split at h
  · cases h
    rfl
  · cases h

theorem rules_manifest : ∃ m, ((Utf8.decode? manifest).toOption.bind fun s => (Json.parse s).toOption) = some m ∧
    Manifest.rules m = .ok [("N", [.text "."])] := by
  have h : ((Json.parse "\x7b\"autoload\": \x7b\"psr-4\": \x7b\"N\": \".\"\x7d\x7d\x7d").toOption.bind fun m =>
      (Manifest.rules m).toOption.bind soleRule?) = some ("N", ".") := by
    decide +kernel
  obtain ⟨m, hparse, hm⟩ := Option.bind_eq_some_iff.mp h
  obtain ⟨rules, hrules, hsole⟩ := Option.bind_eq_some_iff.mp hm
  rw [eq_of_soleRule? hsole] at hrules
  refine ⟨m, by rw [manifest, Utf8.decode?_encode]; exact hparse, ?_⟩
  cases hcases : Manifest.rules m with
  | error e =>
      rw [hcases] at hrules
      cases hrules
  | ok found =>
      rw [hcases] at hrules
      cases hrules
      rfl

theorem ofManifest_manifest {d : Disk} (h : d.find? [Resolver.manifestName] = some (.file manifest)) :
    (Resolver.ofManifest ⟨d, []⟩ (Path.ofPlace [])).outcome = .ok (.autoload (Path.ofPlace []) [⟨"N", []⟩]) := by
  have hdir : Path.join ⟨.root, []⟩ (Path.ofString ".") = ⟨.root, []⟩ := by decide
  have hbare : Resolver.bareSpace "N" = "N" := by decide
  obtain ⟨m, hparse, hrules⟩ := rules_manifest
  rw [Resolver.ofManifest]
  dsimp only
  rw [join_manifest, (Vantage.holds_file isShort_manifest h).read]
  dsimp only
  rw [hparse]
  dsimp only
  rw [hrules]
  show Resolver.ofRules _ ⟨.root, []⟩ [("N", .list [.text "."])] = _
  simp [Resolver.ofRules, Resolver.rulesFor, Manifest.directories, Resolver.rule, hdir, hbare, Path.ofPlace,
    Vantage.resolve_root, bind, Except.bind, Except.map, pure, Except.pure]

/-- With this rule the empty source lacks a namespace. -/
theorem verdict_manifest : ∃ ds notes, verdict Php.parse [⟨"N", []⟩] bare.path "" = .ok (ds, notes) ∧ ds ≠ [] := by
  have hderived : Resolver.derived [⟨"N", []⟩] bare.path.names = [⟨"N", "A"⟩] := by
    have happly : Resolver.Rule.apply ⟨"N", []⟩ bare.path.names = some ⟨"N", "A"⟩ := by decide
    rw [Resolver.derived, Resolver.ranked, List.mergeSort_singleton, List.filterMap_cons, happly]
    rfl
  have hfound : ((Corrections.ofTree (Php.parse "") ⟨"N", "A"⟩).toOption.bind (·.diagnostics.toOption)).map
      List.isEmpty = some false := by
    decide +kernel
  rw [verdict, hderived]
  dsimp only
  cases hk : Corrections.ofTree (Php.parse "") ⟨"N", "A"⟩ with
  | error e =>
      rw [hk] at hfound
      cases hfound
  | ok k =>
      rw [hk] at hfound
      cases hds : k.diagnostics with
      | error e =>
          simp [Except.toOption, hds] at hfound
      | ok ds =>
          refine ⟨ds, [], by simp only [hds], ?_⟩
          simpa [Except.toOption, hds] using hfound

/-- The empty source with its record and a manifest beside it. -/
def ruled : LoneSource where
  name := "A.php"
  data := []
  others := [(Settings.defaultCacheFile, bare.learnt.content), (Resolver.manifestName, manifest)]
  short := bare.short
  source := bare.source
  apart := List.forall_mem_cons.mpr ⟨⟨isShort_record, by decide⟩,
    List.forall_mem_singleton.mpr ⟨isShort_manifest, by decide⟩⟩

/-- A manifest that is written after a check can be all that changes: the check that passes over known files
then ends well, and the one that looks at all files does not. -/
theorem incremental_check_stale :
    let first := (check Php.parse [.flag .incremental] none).exec start
    let moved : Scene := { first.2 with disk := first.2.disk.put [Resolver.manifestName] (.file manifest) }
    first.1 = .ok success ∧ ((check Php.parse [.flag .incremental] none).exec moved).1 = .ok success ∧
      ((check Php.parse [] none).exec moved).1 = .ok trouble := by
  intro first moved
  obtain ⟨printed, notes, hexec⟩ := exists_first
  have hfirst : first = _ := hexec
  have hdisk : moved.disk = .flat ruled.files := by
    show first.2.disk.put _ _ = _
    rw [hfirst]
    exact Disk.put_flat (by decide)
  have hcwd : moved.cwd = [] := by
    show first.2.cwd = _
    rw [hfirst]
    rfl
  have henv : moved.environment = [] := by
    show first.2.environment = _
    rw [hfirst]
    rfl
  have hr : (Resolver.ofManifest ruled.vantage (Path.ofPlace [])).outcome =
      .ok (.autoload (Path.ofPlace []) [⟨"N", []⟩]) := ofManifest_manifest rfl
  obtain ⟨ds, found, hverdict, hds⟩ := verdict_manifest
  refine ⟨by rw [hfirst], ?_, ?_⟩
  · exact ruled.check_passes_over Php.parse hdisk hcwd henv admits_bare hr rfl
  · rw [ruled.check_looks hdisk hcwd henv admits_bare rfl hr hverdict, if_neg hds]

end Project

end Namesake.Host
