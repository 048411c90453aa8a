import Namesake.Proofs.Enumeration
import Namesake.Proofs.Overwrite
import Namesake.Proofs.ProjectChecks
import Namesake.Proofs.Visits

/-! Which files an incremental check passes over. The scene of a project is taken along with the history of
the visits that incremental checks, of the whole project or of a part of it, have made so far. `Turn` is what
may happen next: any change of the disk that leaves the file of the record to the checks, or a check. In every
scene that is reached the record agrees with the history, so a check of the whole project passes over a file
exactly when the latest visit found it right and its octets are those of that visit. A check makes its visits
when it ends; one that fails before, because the file of the record cannot be written, makes none. -/

namespace Namesake.Host

open Text Json Syntax CommandLine

namespace Project

variable {parse : String → Tree} {P : Project} {s s' : Scene} {h h' : List Visit}

/-- Names in the scene are such as a system allows, and sources hold what they are said to hold. -/
structure Orderly (P : Project) (s : Scene) : Prop where
  named : s.disk.Named
  home : ∀ n ∈ s.cwd, Path.IsName n
  contents : ∀ p data, Language.isSource p = true → s.vantage.read p = .ok data → data ∈ P.contents

theorem Shows.orderly (hs : P.Shows s) : P.Orderly s :=
  ⟨hs.named, hs.home, hs.contents⟩

/-- The visits that a check makes: those of its reports, if it goes by a record and comes to its end. -/
def visits (parse : String → Tree) (ws : List Word) (sub : Option Path) (s : Scene) : List Visit :=
  match survey parse ws sub s, ((check parse ws sub).exec s).1 with
  | .ok (_, some _, reports), .ok _ => Visit.ofReports s.vantage reports
  | _, _ => []

/-- What may happen to the project and to the history of its visits. -/
inductive Turn (parse : String → Tree) (P : Project) : Scene × List Visit → Scene × List Visit → Prop
  | change {s : Scene} {h : List Visit} (d : Disk)
      (hd : d.read s.cwd (P.record s) = s.disk.read s.cwd (P.record s)) :
      Turn parse P (s, h) ({ s with disk := d }, h)
  | check {s : Scene} {h : List Visit} (ws : List Word) (part : Option String) (hs : P.Orderly s)
      (hws : P.IsAbout ws s) :
      Turn parse P (s, h)
        (((check parse ws (part.map Path.ofString)).exec s).2, visits parse ws (part.map Path.ofString) s ++ h)

/-- The record in the scene agrees with the history, which is one of files with proper true paths whose
octets, where they were found right, are such as sources hold. -/
structure Recalls (P : Project) (s : Scene) (h : List Visit) : Prop where
  agrees : ∀ f, (Freshness.load s.vantage (P.record s)).outcome = .ok f → Incremental.Agrees f h
  contents : ∀ x ∈ h, x.isClean = true → ∀ data, x.content = .ok data → data ∈ P.contents
  targets : ∀ x ∈ h, ∀ q, x.target = .ok q → ∀ n ∈ q.names, Path.IsName n

/-! ### One check -/

/-- What a check reports on was listed. -/
theorem exists_checkOne {ws : List Word} {sub : Option Path} {st : Settings} {known : Freshness} {reports : List Report}
    (hsurvey : survey parse ws sub s = .ok (st, some known, reports)) :
    ∃ r found, ((FileList.ofSettings st).files s.vantage (some known) sub).outcome = .ok found ∧
      ∀ report ∈ reports, report.path ∈ found ∧
        ∃ notes, Batch.checkOne (.ofResolver r parse) s.vantage report.path = .ok (report, notes) := by
  obtain ⟨-, -, r, -, hreports⟩ := of_survey hsurvey
  obtain ⟨found, hfound, hchecked⟩ := examineIn_eq_ok_iff.mp hreports
  exact ⟨r, found, hfound, Batch.of_mem_checkFiles hchecked⟩

/-- What a check reports on are files with proper names, and sources where they are found right. -/
theorem of_mem_survey (hs : P.Orderly s) {ws : List Word} {part : Option String} {st : Settings} {known : Freshness}
    {reports : List Report} (hsurvey : survey parse ws (part.map Path.ofString) s = .ok (st, some known, reports)) :
    ∀ report ∈ reports, (∀ n ∈ report.path.names, Path.IsName n) ∧
      (Incremental.isClean report = true → Language.isSource report.path = true) := by
  obtain ⟨r, found, hfound, hlisted⟩ := exists_checkOne hsurvey
  intro report hreport
  obtain ⟨hmem, notes, hone⟩ := hlisted report hreport
  have hnames : ∀ n ∈ report.path.names, Path.IsName n := by
    rcases FileList.of_mem_files_in hfound _ hmem with ⟨hpart, -⟩ | ⟨hsource, -⟩
    · obtain ⟨word, -, hword⟩ := Option.map_eq_some_iff.mp hpart
      rw [← hword]
      exact fun n hn => Path.isName_of_mem_ofString hn
    · exact (FileList.isMet_of_mem_sources hs.named (isName_of_mem_root hs.home (of_survey hsurvey).1) hsource).names
  refine ⟨hnames, fun hclean => ?_⟩
  exact Batch.isSource_of_foundRight hnames (Batch.foundRight_of_isClean hone hclean)

/-- A check changes nothing and makes no visit, or it settles its reports, writes the record and visits what it
has reported on. -/
theorem check_visits (parse : String → Tree) (ws : List Word) (sub : Option Path) (s : Scene) :
    ((check parse ws sub).exec s).2.cwd = s.cwd ∧ ((check parse ws sub).exec s).2.environment = s.environment ∧
    (((check parse ws sub).exec s).2.disk = s.disk ∧ visits parse ws sub s = [] ∨
      ∃ st known reports k, survey parse ws sub s = .ok (st, some known, reports) ∧
        Incremental.settleAll s.vantage known reports = .ok k ∧
        k.save s.vantage st.cachePath = .ok ((check parse ws sub).exec s).2.disk ∧
        visits parse ws sub s = Visit.ofReports s.vantage reports) := by
  obtain ⟨hcwd, henv, ⟨hdisk, hfails⟩ | ⟨st, known, reports, k, hsurvey, hsettle, hsave, hends⟩⟩ :=
    check_cases parse ws sub s
  · refine ⟨hcwd, henv, .inl ⟨hdisk, ?_⟩⟩
    rw [visits]
    split
    · rename_i st known reports code hsurvey hends
      obtain ⟨e, he⟩ := hfails st known reports hsurvey
      rw [he] at hends
      cases hends
    · rfl
  · refine ⟨hcwd, henv, .inr ⟨st, known, reports, k, hsurvey, hsettle, hsave, ?_⟩⟩
    rw [visits, hsurvey, hends]

/-- Where the file of the record can be read, a check visits whatever it reports on. -/
theorem visits_of_survey (hs : P.Orderly s) (hcwd : s.disk.Solid s.cwd) {ws : List Word} {part : Option String}
    {st : Settings} {known : Freshness} {reports : List Report} {data : Octets}
    (hsurvey : survey parse ws (part.map Path.ofString) s = .ok (st, some known, reports))
    (hread : s.vantage.read st.cachePath = .ok data) :
    visits parse ws (part.map Path.ofString) s = Visit.ofReports s.vantage reports := by
  obtain ⟨r, found, hfound, hlisted⟩ := exists_checkOne hsurvey
  obtain ⟨k, hsettle, -⟩ : ∃ k, Incremental.settleAll s.vantage known reports = .ok k ∧ _ := by
    apply Incremental.exists_settleAll known
    intro report hreport
    obtain ⟨hmem, hone⟩ := hlisted report hreport
    refine ⟨(of_mem_survey hs hsurvey report hreport).1, ?_, hone⟩
    rcases FileList.of_mem_files_in hfound _ hmem with ⟨-, hfile⟩ | ⟨-, hres⟩
    · obtain ⟨data', hdata'⟩ := Vantage.exists_read_of_isFile hfile
      obtain ⟨q, hholds, -⟩ := Vantage.exists_holds hcwd hs.named hdata'
      exact ⟨_, hholds.resolve⟩
    · exact hres
  obtain ⟨d, hsave⟩ : ∃ d, k.save s.vantage st.cachePath = .ok d := by
    obtain ⟨hnul, hfile⟩ := Vantage.read_eq_ok_iff.mp hread
    exact ⟨_, Vantage.write_eq_ok_iff.mpr ⟨hnul, Disk.write_of_read hfile k.content⟩⟩
  obtain ⟨notes, hcheck⟩ := exec_check_of_survey parse ws (part.map Path.ofString) s
  rw [visits, hcheck, hsurvey]
  dsimp only [settled]
  rw [hsettle]
  dsimp only [Except.bind]
  rw [hsave]
  rfl

theorem Recalls.of_read_eq (hrec : P.Recalls s h) (henv : s'.environment = s.environment)
    (hread : s'.vantage.read (P.record s) = s.vantage.read (P.record s)) : P.Recalls s' h := by
  have hrecord : P.record s' = P.record s := by rw [record, record, henv]
  refine ⟨fun f hf => ?_, hrec.contents, hrec.targets⟩
  rw [hrecord, Freshness.load_congr hread] at hf
  exact hrec.agrees f hf

/-- What one check preserves. -/
theorem Recalls.check (hrec : P.Recalls s h) {ws : List Word} {part : Option String} (hs : P.Orderly s)
    (hws : P.IsAbout ws s) :
    P.Recalls ((CommandLine.check parse ws (part.map Path.ofString)).exec s).2
      (visits parse ws (part.map Path.ofString) s ++ h) := by
  obtain ⟨hcwd, henv, ⟨hdisk, hnone⟩ | ⟨st, known, reports, k, hsurvey, hsettle, hsave, hvisits⟩⟩ :=
    check_visits parse ws (part.map Path.ofString) s
  · rw [hnone]
    apply hrec.of_read_eq henv
    rw [Scene.vantage, hdisk, hcwd]
  · obtain ⟨hst, hload, -⟩ := of_survey hsurvey
    have hmem := of_mem_survey hs hsurvey
    rw [cachePath_eq hst (hws st hst)] at hload hsave
    have hk := (hrec.agrees known hload).settleAll hs.home (fun report hreport => (hmem report hreport).1) hsettle
    have hread := Vantage.read_of_write hsave
    have hrecord : P.record ((CommandLine.check parse ws (part.map Path.ofString)).exec s).2 = P.record s := by
      rw [record, record, henv]
    rw [hvisits]
    constructor
    · intro f hf
      rw [hrecord, Scene.vantage, hcwd] at hf
      exact hk.of_load hread hf
    · intro x hx hclean data hdata
      rcases List.mem_append.mp hx with hx | hx
      · obtain ⟨report, hreport, rfl⟩ := Visit.mem_ofReports.mp hx
        exact hs.contents report.path data ((hmem report hreport).2 hclean) hdata
      · exact hrec.contents x hx hclean data hdata
    · intro x hx q hq
      rcases List.mem_append.mp hx with hx | hx
      · obtain ⟨report, hreport, rfl⟩ := Visit.mem_ofReports.mp hx
        exact Vantage.isName_of_resolve hs.home (hmem report hreport).1 hq
      · exact hrec.targets x hx q hq

/-! ### Any number of turns -/

/-- What one turn preserves. -/
theorem Turn.recalls (hturn : Turn parse P (s, h) (s', h')) (hrec : P.Recalls s h) : P.Recalls s' h' := by
  cases hturn with
  | change d hd =>
      refine hrec.of_read_eq rfl ?_
      rw [Vantage.read, Vantage.read, hd]
  | check ws part hs hws => exact hrec.check hs hws

/-- In every scene that is reached from one without a record, the record agrees with the visits. -/
theorem recalls_of_reachable {s₀ : Scene}
    (hnew : ∀ f, (Freshness.load s₀.vantage (P.record s₀)).outcome = .ok f → f.digests = [])
    (hrun : Relation.ReflTransGen (Turn parse P) (s₀, []) (s, h)) : P.Recalls s h := by
  have hall (a : Scene × List Visit) (ha : Relation.ReflTransGen (Turn parse P) (s₀, []) a) :
      P.Recalls a.1 a.2 := by
    induction ha with
    | refl =>
        refine ⟨fun f hf => Incremental.agrees_of_empty (hnew f hf), ?_, ?_⟩
        · exact List.forall_mem_nil _
        · exact List.forall_mem_nil _
    | tail _ hturn ih => exact hturn.recalls ih
  exact hall (s, h) hrun

/-! ### What is passed over -/

/-- Below a root without links an incremental check passes over the sources that pass the patterns and count as
known, and over no others of them. -/
theorem not_reported_iff (hs : P.Orderly s) {ws : List Word} {st : Settings} {known : Freshness}
    {reports : List Report} (hsurvey : survey parse ws none s = .ok (st, some known, reports))
    (hlinks : s.disk.Linkless st.root.names) {p : Path} (hp : p ∈ (FileList.ofSettings st).sources s.disk)
    (hadmits : (FileList.ofSettings st).admits p = true) :
    (∃ q, s.vantage.resolve p = .ok q) ∧
      ((∀ report ∈ reports, report.path ≠ p) ↔ FileList.isStale known s.vantage p = false) := by
  obtain ⟨hst, -, r, -, hreports⟩ := of_survey hsurvey
  obtain ⟨stale, hstale, hchecked⟩ := examineIn_eq_ok_iff.mp hreports
  rw [FileList.files_stale hs.named (isName_of_mem_root hs.home hst)] at hstale
  obtain ⟨found, hfound, rfl⟩ := map_eq_ok_iff.mp hstale
  obtain ⟨hpaths, -⟩ := Batch.map_path_of_checkFiles hchecked
  have hlisted : p ∈ found :=
    (FileList.mem_files_of_linkless (l := .ofSettings st) hs.named hlinks hfound p).mpr ⟨hp, hadmits⟩
  refine ⟨(FileList.of_mem_files hfound p hlisted).2, ?_⟩
  have hreported : (∃ report ∈ reports, report.path = p) ↔ FileList.isStale known s.vantage p = true := by
    rw [← List.mem_map, hpaths, List.mem_filter, and_iff_right hlisted]
  rw [← Bool.not_eq_true, ← hreported]
  simp only [not_exists, not_and, ne_eq]

end Project

end Namesake.Host
