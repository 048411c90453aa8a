import Mathlib.Logic.Relation
import Namesake.Proofs.FlatDisk
import Namesake.Proofs.Reviews
import Namesake.Proofs.Visits
import Namesake.Watch

/-! What a watch checks again. The stage of a watch is the disk, the state of the handler and the history of the
visits that its calls have made so far. `Turn` is what may happen next: any change of the disk, or a call with some
paths. On every stage that is reached from the beginning the handler knows of each file the digest of the octets that
it last looked at without an error, so a call checks the files whose octets are others, and no more. A path that the
system refuses because it is too long ends a call before any file is checked. -/

namespace Namesake

open Text Json Syntax

variable {v : Vantage} {p q : Path} {h : List Visit} {data : Octets}

namespace Visit

/-- The octets with which a file was last looked at without an error. -/
def lastContent (h : List Visit) (q : Path) : Option Octets :=
  (latest (h.filter fun x => x.report.error.isNone) q).bind fun x => x.content.toOption

/-- Is there a file at the path that was never looked at with the octets it has, or not as the last ones? -/
def isNews (h : List Visit) (v : Vantage) (p : Path) : Bool :=
  match v.isFile p, v.resolve p with
  | .ok true, .ok q => decide ((v.read p).toOption ≠ lastContent h q)
  | _, _ => false

theorem lastContent_cons_of_error {x : Visit} (hx : x.report.error.isNone = false) (q : Path) :
    lastContent (x :: h) q = lastContent h q := by
  rw [lastContent, List.filter_cons_of_neg (by rw [hx]; nofun)]
  rfl

theorem lastContent_cons {x : Visit} (hx : x.report.error.isNone = true) (htarget : x.target = .ok q)
    (hdata : x.content = .ok data) (q' : Path) :
    lastContent (x :: h) q' = if q = q' then some data else lastContent h q' := by
  have hkept : (x :: h).filter (fun x => x.report.error.isNone) = x :: h.filter fun x => x.report.error.isNone :=
    List.filter_cons_of_pos hx
  rw [lastContent, hkept]
  split_ifs with heq
  · rw [latest_cons_of_eq (heq ▸ htarget), Option.bind_some, hdata]
    rfl
  · rw [latest_cons_of_ne fun heq' => heq (Except.ok.inj (htarget.symm.trans heq'))]
    rfl

end Visit

namespace Vantage

/-- Whether there is a file can be told unless the path is too long. -/
theorem isFile_cases (v : Vantage) (p : Path) :
    v.isFile p = .ok true ∨ v.isFile p = .ok false ∨ v.isFile p = .error (.ofTrouble p .tooLong) := by
  unfold isFile
  split
  · exact .inr (.inl rfl)
  · split
    · exact .inl rfl
    · exact .inr (.inl rfl)
    · exact .inr (.inr rfl)
    · exact .inr (.inl rfl)

end Vantage

namespace Recheck

/-! ### Choosing -/

section Filter

variable {α ε : Type} {f : α → Except ε Bool} {l : List α}

theorem filterM_of_forall {g : α → Bool} (hl : ∀ x ∈ l, f x = .ok (g x)) : l.filterM f = .ok (l.filter g) := by
  have haux (acc : List α) : l.filterAuxM f acc = .ok ((l.filter g).reverse ++ acc) := by
    induction l generalizing acc with
    | nil => rfl
    | cons x l ih =>
        obtain ⟨hx, hl⟩ := List.forall_mem_cons.mp hl
        rw [List.filterAuxM, hx]
        refine (ih hl _).trans ?_
        cases hgx : g x with
        | true => rw [List.filter_cons_of_pos hgx, List.reverse_cons, List.append_assoc]; rfl
        | false => rw [List.filter_cons_of_neg (by rw [hgx]; nofun)]; rfl
  rw [List.filterM, haux []]
  show Except.ok ((l.filter g).reverse ++ []).reverse = _
  rw [List.append_nil, List.reverse_reverse]

/-- The failure of a choice is that of one of its questions. -/
theorem exists_of_filterM {x : α} {e : ε} (hx : x ∈ l) (he : f x = .error e) :
    ∃ y ∈ l, ∃ e, f y = .error e ∧ l.filterM f = .error e := by
  have haux (acc : List α) : ∃ y ∈ l, ∃ e, f y = .error e ∧ l.filterAuxM f acc = .error e := by
    induction l generalizing acc with
    | nil => cases hx
    | cons z l ih =>
        rw [List.filterAuxM]
        cases hz : f z with
        | error e => exact ⟨z, List.mem_cons_self, e, hz, rfl⟩
        | ok b =>
            have hmem : x ∈ l := by
              refine (List.mem_cons.mp hx).resolve_left ?_
              rintro rfl
              rw [hz] at he
              cases he
            obtain ⟨y, hy, e', hfy, haux⟩ := ih hmem (cond b (z :: acc) acc)
            exact ⟨y, List.mem_cons_of_mem _ hy, e', hfy, haux⟩
  obtain ⟨y, hy, e', hfy, haux⟩ := haux []
  refine ⟨y, hy, e', hfy, ?_⟩
  rw [List.filterM, haux]
  rfl

end Filter

/-- What the handler knows are the digests of the octets that the files were last looked at with, which are
among those that are told apart by their digests. -/
structure Recalls (contents : Set Octets) (known : Freshness) (h : List Visit) : Prop where
  digests : ∀ q : Path, (∀ n ∈ q.names, Path.IsName n) →
    Fields.get? q.render known.digests = (Visit.lastContent h q).map Digest.sha256
  contents : ∀ q, ∀ data ∈ Visit.lastContent h q, data ∈ contents

variable {contents : Set Octets} {known : Freshness} {paths : List Path}

theorem isDue_cases (hv : v.Proper) (known : Freshness) (p : Path) :
    (∃ b, isDue known v p = .ok b) ∨
      v.isFile p = .error (.ofTrouble p .tooLong) ∧ isDue known v p = .error (.ofTrouble p .tooLong) := by
  unfold isDue
  rcases v.isFile_cases p with hfile | hfile | hfile
  · obtain ⟨data, hread⟩ := Vantage.exists_read_of_isFile hfile
    obtain ⟨b, hb, -⟩ := Freshness.exists_isFresh known (hv.exists_holds hread).1.resolve
    rw [hfile]
    refine .inl ⟨!b, ?_⟩
    simp only [hb, bind, Except.bind]
    rfl
  · rw [hfile]
    exact .inl ⟨false, rfl⟩
  · rw [hfile]
    exact .inr ⟨rfl, rfl⟩

/-- A file is due exactly if its octets are news. -/
theorem Recalls.isDue (hrec : Recalls contents known h) (hinj : Set.InjOn Digest.sha256 contents) (hv : v.Proper)
    (hnow : ∀ data, v.read p = .ok data → data ∈ contents) (hfile : v.isFile p ≠ .error (.ofTrouble p .tooLong)) :
    Recheck.isDue known v p = .ok (Visit.isNews h v p) := by
  unfold Recheck.isDue Visit.isNews
  rcases v.isFile_cases p with hfile' | hfile' | hfile'
  · obtain ⟨data, hread⟩ := Vantage.exists_read_of_isFile hfile'
    obtain ⟨hholds, hfind⟩ := hv.exists_holds hread
    obtain ⟨b, hb, hfresh⟩ := Freshness.exists_isFresh known hholds.resolve
    have hnames : ∀ n ∈ (Path.ofPlace (v.disk.placeOf v.cwd p)).names, Path.IsName n := fun n hn =>
      (hv.named.isEntry hfind n hn).toIsName
    have hknown : b = true ↔ Visit.lastContent h (Path.ofPlace (v.disk.placeOf v.cwd p)) = some data := by
      rw [hfresh, hrec.digests _ hnames]
      constructor
      · rintro ⟨data', hread', hdigest⟩
        obtain rfl : data = data' := Except.ok.inj (hread.symm.trans hread')
        obtain ⟨old, hold, hsame⟩ := Option.map_eq_some_iff.mp hdigest
        obtain rfl : old = data := hinj (hrec.contents _ _ hold) (hnow _ hread) hsame
        exact hold
      · intro hlast
        exact ⟨data, hread, by rw [hlast]; rfl⟩
    simp only [hfile', hholds.resolve, hread, hb, bind, Except.bind, if_true]
    refine congrArg Except.ok ?_
    rw [Bool.eq_iff_iff, Bool.not_eq_true', ← Bool.not_eq_true, hknown, decide_eq_true_iff]
    exact not_congr eq_comm
  · rw [hfile']
    rfl
  · exact absurd hfile' hfile

/-- What a call may be made with: proper names, and files whose octets are told apart by their digests. -/
structure Fits (v : Vantage) (contents : Set Octets) (paths : List Path) : Prop where
  proper : v.Proper
  names : ∀ p ∈ paths, ∀ n ∈ p.names, Path.IsName n
  contents : ∀ p ∈ paths, ∀ data, v.read p = .ok data → data ∈ contents

theorem Recalls.stale (hrec : Recalls contents known h) (hinj : Set.InjOn Digest.sha256 contents)
    (hfits : Fits v contents paths) (hfile : ∀ p ∈ paths, v.isFile p ≠ .error (.ofTrouble p .tooLong)) :
    Recheck.stale known v paths = .ok (Path.sort (paths.filter (Visit.isNews h v))) := by
  rw [Recheck.stale, filterM_of_forall fun p hp => hrec.isDue hinj hfits.proper (hfits.contents p hp) (hfile p hp)]
  rfl

/-- A path that is too long keeps all others from being looked at. -/
theorem stale_of_tooLong (hv : v.Proper) (known : Freshness) (hp : p ∈ paths)
    (hfile : v.isFile p = .error (.ofTrouble p .tooLong)) :
    ∃ p' ∈ paths, v.isFile p' = .error (.ofTrouble p' .tooLong) ∧
      stale known v paths = .error (.ofTrouble p' .tooLong) := by
  have hdue : isDue known v p = .error (.ofTrouble p .tooLong) := by
    rw [isDue, hfile]
    rfl
  obtain ⟨p', hp', e, he, hfilter⟩ := exists_of_filterM hp hdue
  obtain ⟨b, hb⟩ | ⟨hfile', hdue'⟩ := isDue_cases hv known p'
  · rw [hb] at he
    cases he
  · obtain rfl : _ = e := Except.error.inj (hdue'.symm.trans he)
    exact ⟨p', hp', hfile', by rw [stale, hfilter]; rfl⟩

/-! ### Recording -/

variable {resolver : Resolver} {parse : String → Tree}

/-- What recording one review preserves. -/
theorem Recalls.record (hrec : Recalls contents known h) (hv : v.Proper)
    (hnow : ∀ data, v.read p = .ok data → data ∈ contents) :
    ∃ known', Recheck.record v known (Batch.review resolver parse v p) = .ok known' ∧
      Recalls contents known' (⟨v, Batch.review resolver parse v p⟩ :: h) := by
  rw [Recheck.record, Batch.path_review]
  cases herror : (Batch.review resolver parse v p).error.isNone with
  | false =>
      have hlast := @Visit.lastContent_cons_of_error h ⟨v, Batch.review resolver parse v p⟩ herror
      refine ⟨known, rfl, fun q hq => ?_, fun q data hdata => ?_⟩
      · rw [hlast]
        exact hrec.digests q hq
      · rw [hlast] at hdata
        exact hrec.contents q data hdata
  | true =>
      obtain ⟨data, hread⟩ := Batch.exists_read_of_review (Option.isNone_iff_eq_none.mp herror)
      obtain ⟨hholds, hfind⟩ := hv.exists_holds hread
      generalize hk : Path.ofPlace (v.disk.placeOf v.cwd p) = k at hholds
      have hnames : ∀ n ∈ k.names, Path.IsName n := fun n hn =>
        (hv.named.isEntry hfind n (by rw [← hk] at hn; exact hn)).toIsName
      have hpath : (Batch.review resolver parse v p).path = p := Batch.path_review ..
      have hlast := @Visit.lastContent_cons k h data ⟨v, Batch.review resolver parse v p⟩ herror
        (by rw [Visit.target, hpath]; exact hholds.resolve) (by rw [Visit.content, hpath]; exact hholds.read)
      refine ⟨_, Freshness.mark_of_holds known hholds, fun q hq => ?_, fun q old hold => ?_⟩
      · rw [hlast, Fields.get?_set]
        by_cases heq : k = q
        · rw [if_pos heq, if_pos (by rw [heq])]
          rfl
        · rw [if_neg heq, if_neg (Path.render_ne hnames hq heq)]
          exact hrec.digests q hq
      · rw [hlast] at hold
        split_ifs at hold
        · cases hold
          exact hnow data hread
        · exact hrec.contents q old hold

/-- What recording the reviews of a call preserves. -/
theorem Recalls.remember (hrec : Recalls contents known h) (hfits : Fits v contents paths) {files : List Path}
    (hfiles : ∀ p ∈ files, p ∈ paths) :
    ∃ known', Recheck.remember v known (files.map (Batch.review resolver parse v)) = .ok known' ∧
      Recalls contents known' (Visit.ofReports v (files.map (Batch.review resolver parse v)) ++ h) := by
  induction files generalizing known h with
  | nil => exact ⟨known, rfl, hrec⟩
  | cons p files ih =>
      obtain ⟨hp, hfiles⟩ := List.forall_mem_cons.mp hfiles
      obtain ⟨first, hfirst, hrec⟩ := hrec.record hfits.proper (hfits.contents p hp)
      obtain ⟨last, hlast, hrec⟩ := ih hrec hfiles
      refine ⟨last, ?_, ?_⟩
      · rw [List.map_cons, Recheck.remember, List.foldlM_cons, hfirst]
        exact hlast
      · rw [List.map_cons, Visit.ofReports_cons]
        exact hrec

/-! ### Calls -/

/-- The visits that a call makes: those of the reports on what it checks, the latest one first. -/
def visits (r : Reconciler) (v : Vantage) (s : Recheck) (paths : List Path) : List Visit :=
  match stale s.known v paths with
  | .error _ => []
  | .ok files => Visit.ofReports v ((Batch.checkFiles r v files).outcome.toOption.getD [])

/-- What a call with no path that is too long checks, prints and records. -/
theorem Recalls.check {s : Recheck} (hrec : Recalls contents s.known h) (hinj : Set.InjOn Digest.sha256 contents)
    (hfits : Fits v contents paths) (hfile : ∀ p ∈ paths, v.isFile p ≠ .error (.ofTrouble p .tooLong))
    {files : List Path} (hfiles : files = Path.sort (paths.filter (Visit.isNews h v))) {reports : List Report}
    (hreports : reports = files.map (Batch.review resolver parse v)) :
    ∃ known, Recheck.check (.ofResolver resolver parse) v s paths =
        ⟨(Batch.checkFiles (.ofResolver resolver parse) v files).notes,
          .ok ⟨known, s.printed ++ if files = [] then [] else Report.lines reports⟩⟩ ∧
      Recalls contents known (Visit.ofReports v reports ++ h) ∧
      visits (.ofResolver resolver parse) v s paths = Visit.ofReports v reports := by
  have hstale := hrec.stale hinj hfits hfile
  have hmem : ∀ p ∈ files, p ∈ paths := by
    rw [hfiles]
    exact fun p hp => List.mem_of_mem_filter (Path.mem_sort.mp hp)
  have hcheck := Batch.checkFiles_eq hfits.proper resolver parse fun p hp => hfits.names p (hmem p hp)
  obtain ⟨known, hknown, hrec'⟩ := hrec.remember hfits hmem
  rw [← hfiles] at hstale
  rw [Recheck.check, visits, hstale]
  rw [← hreports] at hcheck hknown hrec'
  cases files with
  | nil =>
      obtain rfl : reports = [] := hreports
      refine ⟨s.known, ?_, hrec, rfl⟩
      rw [if_pos rfl, List.append_nil]
      rfl
  | cons p files =>
      refine ⟨known, ?_, hrec', ?_⟩
      · rw [if_neg (List.cons_ne_nil _ _)]
        dsimp only
        rw [hcheck]
        dsimp only [Except.bind]
        rw [hknown]
        rfl
      · dsimp only
        rw [hcheck]
        rfl

/-! ### Any number of turns -/

/-- The disk as seen from the directory that relative paths start from, the state of the handler, and the
visits of its calls with the latest one first. -/
structure Stage where
  vantage : Vantage
  state : Recheck
  visits : List Visit

namespace Stage

def begin (v : Vantage) : Stage :=
  ⟨v, ⟨.empty, []⟩, []⟩

def change (g : Stage) (d : Disk) : Stage :=
  { g with vantage := { g.vantage with disk := d } }

/-- After a call, which leaves the state as it is if it fails. -/
def call (r : Reconciler) (g : Stage) (paths : List Path) : Stage :=
  ⟨g.vantage, (check r g.vantage g.state paths).outcome.toOption.getD g.state,
    Recheck.visits r g.vantage g.state paths ++ g.visits⟩

/-- A call with a path that is too long fails and does nothing. -/
theorem call_of_tooLong {g : Stage} (hv : g.vantage.Proper) (r : Reconciler) (hp : p ∈ paths)
    (hfile : g.vantage.isFile p = .error (.ofTrouble p .tooLong)) :
    g.call r paths = g ∧ ∃ p' ∈ paths, g.vantage.isFile p' = .error (.ofTrouble p' .tooLong) ∧
      check r g.vantage g.state paths = ⟨[], .error (.ofTrouble p' .tooLong)⟩ := by
  obtain ⟨p', hp', hfile', hstale⟩ := stale_of_tooLong hv g.state.known hp hfile
  rw [call, Recheck.visits, check, hstale]
  exact ⟨rfl, p', hp', hfile', rfl⟩

end Stage

/-- What may happen while a watch is on. -/
inductive Turn (r : Reconciler) (contents : Set Octets) : Stage → Stage → Prop
  | change {g : Stage} (d : Disk) : Turn r contents g (g.change d)
  | call {g : Stage} (paths : List Path) (hfits : Fits g.vantage contents paths) :
      Turn r contents g (g.call r paths)

variable {g g' : Stage}

/-- What one turn preserves. -/
theorem Turn.recalls (hturn : Turn (.ofResolver resolver parse) contents g g')
    (hinj : Set.InjOn Digest.sha256 contents) (hrec : Recalls contents g.state.known g.visits) :
    Recalls contents g'.state.known g'.visits := by
  cases hturn with
  | change d => exact hrec
  | call paths hfits =>
      by_cases hfile : ∀ p ∈ paths, g.vantage.isFile p ≠ .error (.ofTrouble p .tooLong)
      · obtain ⟨known, hcheck, hrec', hvisits⟩ := hrec.check hinj hfits hfile rfl rfl
        rw [Stage.call, hcheck, hvisits]
        exact hrec'
      · push Not at hfile
        obtain ⟨p, hp, hfile⟩ := hfile
        rw [(Stage.call_of_tooLong hfits.proper (.ofResolver resolver parse) hp hfile).1]
        exact hrec

/-- On every stage that is reached the handler knows what its visits say. -/
theorem recalls_of_reachable (hinj : Set.InjOn Digest.sha256 contents) {v₀ : Vantage}
    (hrun : Relation.ReflTransGen (Turn (.ofResolver resolver parse) contents) (.begin v₀) g) :
    Recalls contents g.state.known g.visits := by
  induction hrun with
  | refl => exact ⟨fun q hq => rfl, fun q data hdata => by cases hdata⟩
  | tail _ hturn ih => exact hturn.recalls hinj ih

/-- **A watch checks what is news, and nothing twice.** Let a handler that knows nothing be called any number of times
while files come, change and go, and let no two contents of its files share a digest. If none of the paths of the next
call is too long for the system, the call checks those of them that lead to a file with other octets than it was last
looked at with without an error, in order and with one report for each; it prints the reports, if there are any, and
these checks are its visits. If a path is too long the call fails, and checks, prints and records nothing. -/
theorem checks_news_once (hinj : Set.InjOn Digest.sha256 contents) {v₀ : Vantage}
    (hrun : Relation.ReflTransGen (Turn (.ofResolver resolver parse) contents) (.begin v₀) g)
    (hfits : Fits g.vantage contents paths) :
    ((∀ p ∈ paths, g.vantage.isFile p ≠ .error (.ofTrouble p .tooLong)) → ∃ files reports known,
      files.Perm (paths.filter (Visit.isNews g.visits g.vantage)) ∧
      files.Pairwise (fun p p' => Path.le p p' = true) ∧
      (Batch.checkFiles (.ofResolver resolver parse) g.vantage files).outcome = .ok reports ∧
      reports.map Report.path = files ∧
      check (.ofResolver resolver parse) g.vantage g.state paths =
        ⟨(Batch.checkFiles (.ofResolver resolver parse) g.vantage files).notes,
          .ok ⟨known, g.state.printed ++ if files = [] then [] else Report.lines reports⟩⟩ ∧
      g.call (.ofResolver resolver parse) paths =
        ⟨g.vantage, ⟨known, g.state.printed ++ if files = [] then [] else Report.lines reports⟩,
          Visit.ofReports g.vantage reports ++ g.visits⟩) ∧
    ∀ p ∈ paths, g.vantage.isFile p = .error (.ofTrouble p .tooLong) →
      g.call (.ofResolver resolver parse) paths = g ∧
      ∃ p' ∈ paths, g.vantage.isFile p' = .error (.ofTrouble p' .tooLong) ∧
        check (.ofResolver resolver parse) g.vantage g.state paths = ⟨[], .error (.ofTrouble p' .tooLong)⟩ := by
  have hrec := recalls_of_reachable hinj hrun
  constructor
  · intro hfile
    obtain ⟨known, hcheck, -, hvisits⟩ := hrec.check hinj hfits hfile rfl rfl
    refine ⟨_, _, known, List.mergeSort_perm _ _, Path.sort_pairwise _, ?_, Batch.map_path_review .., hcheck, ?_⟩
    · apply Batch.checkFiles_eq hfits.proper
      intro p hp
      exact hfits.names p (List.mem_of_mem_filter (Path.mem_sort.mp hp))
    · rw [Stage.call, hcheck, hvisits]
      rfl
  · exact fun p hp hfile => Stage.call_of_tooLong hfits.proper (.ofResolver resolver parse) hp hfile

/-! ### A source and a file of no language -/

/-- Both files are empty. -/
def twoEmpty : Vantage :=
  ⟨.flat [("A.php", []), ("b.txt", [])], []⟩

def emptyPaths : List Path :=
  [Path.ofPlace ["A.php"], Path.ofPlace ["b.txt"]]

/-- A reconciler that knows no names. -/
def nameless : Reconciler :=
  .ofResolver (.table []) Php.parse

theorem holds_twoEmpty : ∀ p ∈ emptyPaths, twoEmpty.isFile p = .ok true ∧ twoEmpty.Holds p p [] := by
  have hshort : Path.IsShort "A.php" ∧ Path.IsShort "b.txt" := by decide
  simp only [emptyPaths, List.forall_mem_cons]
  exact ⟨⟨Vantage.isFile_file hshort.1 rfl, Vantage.holds_file hshort.1 rfl⟩,
    ⟨Vantage.isFile_file hshort.2 rfl, Vantage.holds_file hshort.2 rfl⟩, List.forall_mem_nil _⟩

theorem isFile_twoEmpty : ∀ p ∈ emptyPaths, twoEmpty.isFile p ≠ .error (.ofTrouble p .tooLong) := by
  intro p hp hlong
  rw [(holds_twoEmpty p hp).1] at hlong
  cases hlong

theorem fits_twoEmpty : Fits twoEmpty {[]} emptyPaths := by
  refine ⟨⟨Disk.named_flat (by decide), Disk.solid_nil _⟩, ?_, fun p hp data hdata => ?_⟩
  · have hentry : ∀ p ∈ emptyPaths, ∀ n ∈ p.names, Path.IsEntry n := by decide
    exact fun p hp n hn => (hentry p hp n hn).toIsName
  · exact (Except.ok.inj ((holds_twoEmpty p hp).2.read.symm.trans hdata)).symm

theorem isNews_twoEmpty (hp : p ∈ emptyPaths) (h : List Visit) :
    Visit.isNews h twoEmpty p = decide (Visit.lastContent h p ≠ some []) := by
  obtain ⟨hfile, hholds⟩ := holds_twoEmpty p hp
  rw [Visit.isNews, hfile, hholds.resolve, hholds.read]
  exact decide_eq_decide.mpr ne_comm

theorem error_review_twoEmpty :
    emptyPaths.map (fun p => (Batch.review (.table []) Php.parse twoEmpty p).error.isNone) = [true, false] := by
  have hread : ∀ p ∈ emptyPaths, twoEmpty.read p = .ok [] := fun p hp => (holds_twoEmpty p hp).2.read
  have htext : Utf8.decode? [] = .ok "" := rfl
  have hsource : Language.resolve none (some (Path.ofPlace ["A.php"])) = .ok .php := by decide
  have hother : Language.resolve none (some (Path.ofPlace ["b.txt"])) = .error (.unknownSuffix ".txt") := by decide
  simp only [emptyPaths, List.forall_mem_cons] at hread
  simp only [emptyPaths, List.map_cons, List.map_nil, Batch.review, hread, Batch.diagnose, htext, hsource, hother]
  rfl

/-- The first call looks at both files, but only at the source without an error. -/
theorem lastContent_twoEmpty :
    emptyPaths.map (Visit.lastContent ((Stage.begin twoEmpty).call nameless emptyPaths).visits) = [some [], none] := by
  have hnone : Recalls {[]} (Stage.begin twoEmpty).state.known [] :=
    ⟨fun q hq => rfl, fun q data hdata => by cases hdata⟩
  have hfiles : emptyPaths = Path.sort (emptyPaths.filter (Visit.isNews [] twoEmpty)) := by
    rw [List.filter_eq_self.mpr fun p hp => by rw [isNews_twoEmpty hp]; rfl]
    exact (List.mergeSort_of_pairwise (by decide)).symm
  obtain ⟨known, -, -, hvisits⟩ := hnone.check (Set.injOn_singleton _ _)
    fits_twoEmpty isFile_twoEmpty hfiles rfl
  have hcall : ((Stage.begin twoEmpty).call nameless emptyPaths).visits =
      Visit.ofReports twoEmpty (emptyPaths.map (Batch.review (.table []) Php.parse twoEmpty)) :=
    (congrArg (· ++ []) hvisits).trans (List.append_nil _)
  have herror := error_review_twoEmpty
  have hholds := holds_twoEmpty
  simp only [emptyPaths, List.forall_mem_cons] at hholds
  simp only [emptyPaths, List.map_cons, List.map_nil, List.cons.injEq, and_true] at hcall herror ⊢
  obtain ⟨⟨-, hholds⟩, -⟩ := hholds
  have hpath := Batch.path_review (.table []) Php.parse twoEmpty (Path.ofPlace ["A.php"])
  have hlast := fun q => @Visit.lastContent_cons _ [] _ ⟨twoEmpty, Batch.review (.table []) Php.parse twoEmpty
    (Path.ofPlace ["A.php"])⟩ herror.1 (by rw [Visit.target, hpath]; exact hholds.resolve)
    (by rw [Visit.content, hpath]; exact hholds.read) q
  have hskip := @Visit.lastContent_cons_of_error [⟨twoEmpty, Batch.review (.table []) Php.parse twoEmpty
    (Path.ofPlace ["A.php"])⟩] ⟨twoEmpty, Batch.review (.table []) Php.parse twoEmpty (Path.ofPlace ["b.txt"])⟩ herror.2
  rw [hcall]
  exact ⟨(hskip _).trans (hlast _), (hskip _).trans (hlast _)⟩

/-- A source that was checked, went and came back is not checked again, but a file is that could not be looked at. -/
theorem checks_news_once_restored :
    let g := (((Stage.begin twoEmpty).call nameless emptyPaths).change .empty).change twoEmpty.disk
    Relation.ReflTransGen (Turn nameless {[]}) (.begin twoEmpty) g ∧ Fits g.vantage {[]} emptyPaths ∧
      ∃ reports, (Batch.checkFiles nameless g.vantage [Path.ofPlace ["b.txt"]]).outcome = .ok reports ∧
        (g.call nameless emptyPaths).visits = Visit.ofReports g.vantage reports ++ g.visits := by
  intro g
  have hrun : Relation.ReflTransGen (Turn nameless {[]}) (.begin twoEmpty) g :=
    .tail (.tail (.single (.call emptyPaths fits_twoEmpty)) (.change .empty)) (.change twoEmpty.disk)
  refine ⟨hrun, fits_twoEmpty, ?_⟩
  obtain ⟨files, reports, known, hfiles, -, hreports, -, -, hcall⟩ :=
    (checks_news_once (Set.injOn_singleton _ _) hrun fits_twoEmpty).1 isFile_twoEmpty
  have hnews : emptyPaths.filter (Visit.isNews g.visits g.vantage) = [Path.ofPlace ["b.txt"]] := by
    have hlast := lastContent_twoEmpty
    have hisNews : ∀ p ∈ emptyPaths, Visit.isNews g.visits g.vantage p = _ := fun p hp => isNews_twoEmpty hp g.visits
    simp only [emptyPaths, List.forall_mem_cons, List.map_cons, List.map_nil, List.cons.injEq] at hlast hisNews
    rw [emptyPaths, List.filter_cons_of_neg, List.filter_cons_of_pos, List.filter_nil]
    · rw [hisNews.2.1]
      exact decide_eq_true fun heq => by cases hlast.2.1.symm.trans heq
    · rw [hisNews.1]
      exact fun h => of_decide_eq_true h hlast.1
  rw [hnews, List.perm_singleton] at hfiles
  subst hfiles
  refine ⟨reports, hreports, ?_⟩
  rw [nameless, hcall]

/-- A name of that many letters. -/
def letters (k : Nat) : String :=
  .ofList (List.replicate k 'a')

theorem holdsNul_letters (k : Nat) : Path.holdsNul (letters k) = false := by
  rw [Path.holdsNul, letters, String.toList_ofList, ← Bool.not_eq_true, List.contains_iff_mem, List.mem_replicate]
  exact fun h => absurd h.2 (by decide)

theorem size_letters (k : Nat) : Utf8.size (letters k) = k := by
  rw [← Utf8.length_encode, letters, Utf8.encode_ofList, Utf8.encodeChars, List.length_flatMap, List.map_replicate,
    List.sum_replicate]
  exact Nat.mul_one k

/-- Together with a path that is too long a source that was never looked at is not checked. -/
theorem news_not_checked :
    Visit.isNews [] twoEmpty (Path.ofPlace ["A.php"]) = true ∧
      check nameless twoEmpty (Stage.begin twoEmpty).state [Path.ofPlace [letters 256], Path.ofPlace ["A.php"]] =
        ⟨[], .error (.ofTrouble (Path.ofPlace [letters 256]) .tooLong)⟩ ∧
      (Stage.begin twoEmpty).call nameless [Path.ofPlace [letters 256], Path.ofPlace ["A.php"]] = .begin twoEmpty := by
  have hlong : twoEmpty.isFile (Path.ofPlace [letters 256]) = .error (.ofTrouble (Path.ofPlace [letters 256]) .tooLong) :=
    Vantage.isFile_tooLong (holdsNul_letters 256) (fun h => absurd (congrArg Utf8.size h) (by rw [size_letters]; decide))
      (by rw [size_letters]; decide)
  have hmem : Path.ofPlace ["A.php"] ∈ emptyPaths := List.mem_cons_self
  obtain ⟨hcall, p, hp, hfile, hcheck⟩ := @Stage.call_of_tooLong _ [Path.ofPlace [letters 256], Path.ofPlace ["A.php"]]
    (.begin twoEmpty) fits_twoEmpty.proper nameless List.mem_cons_self hlong
  obtain rfl : p = Path.ofPlace [letters 256] := by
    refine (List.mem_cons.mp hp).resolve_right fun hp => isFile_twoEmpty p ?_ hfile
    exact List.mem_singleton.mp hp ▸ hmem
  exact ⟨by rw [isNews_twoEmpty hmem]; rfl, hcheck, hcall⟩

end Recheck

end Namesake
