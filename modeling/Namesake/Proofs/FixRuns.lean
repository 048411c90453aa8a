import Namesake.Php
import Namesake.Proofs.Fixing
import Namesake.Proofs.FlatDisk

/-! Runs of fixes. A run goes through its paths one by one, and each step is a plan that is carried out, so a run
always ends with one report for each path. A step changes the file of its path or nothing; steps about other
files see the same octets at the same places as if they were alone. -/

namespace Namesake.Batch

open Text Syntax

variable {v : Vantage} {p : Path} {ps : List Path} {resolver : Resolver} {parse : String → Tree} {dry : Bool}

/-- What fixing the file at `p` may do to the disk of `v`, which is `d` afterwards: a file that is written
holds its old octets with the edits put into them, and all else stays. -/
structure Fixes (dry : Bool) (v : Vantage) (p : Path) (report : FixReport) (d : Disk) : Prop where
  path : report.path = p
  /-- The file is written exactly if there was no error, there are edits, and this is no rehearsal. -/
  written_iff : report.written = true ↔ Changes dry report
  kept : report.written = false → d = v.disk
  spliced : report.written = true → ∃ q data, v.Holds p (Path.ofPlace q) data ∧
    v.disk.find? q = some (.file data) ∧ (Edit.sorted report.edits).Pairwise Edit.Before ∧
    (∀ e ∈ report.edits, e.stop ≤ data.length) ∧
    (∀ m, d.find? m =
      if m = q then some (.file (Edit.weave data 0 (Edit.sorted report.edits))) else v.disk.find? m) ∧
    Vantage.read ⟨d, v.cwd⟩ p = .ok (Edit.weave data 0 (Edit.sorted report.edits))

/-- From the disk `d` the paths are fixed one after the other, with these reports, which gives the disk `d'`. -/
inductive Course (dry : Bool) (cwd : Place) : Disk → List Path → List FixReport → Disk → Prop
  | done (d : Disk) : Course dry cwd d [] [] d
  | step {d d' d'' : Disk} {p : Path} {ps : List Path} {report : FixReport} {reports : List FixReport}
      (h : Fixes dry ⟨d, cwd⟩ p report d') (rest : Course dry cwd d' ps reports d'') :
      Course dry cwd d (p :: ps) (report :: reports) d''

variable (hparse : ∀ text, (parse text).WellFormed text.toList)

include hparse

theorem fixes_plan (hv : v.Proper) (resolver : Resolver) (dry : Bool) (p : Path) :
    Fixes dry v p (plan resolver parse dry v p).1 (v.carry (plan resolver parse dry v p).2).disk ∧
      (v.carry (plan resolver parse dry v p).2).Proper := by
  rcases plan_cases hparse resolver dry v p with
    ⟨hnone, hpath, hwritten, hidle⟩ | ⟨edits, data, hread, hplan, hchanges, hapart, hfit⟩
  · rw [hnone]
    refine ⟨⟨hpath, ?_, fun _ => rfl, ?_⟩, hv⟩
    · rw [hwritten]
      exact iff_of_false Bool.false_ne_true hidle
    · rw [hwritten]
      nofun
  · obtain ⟨hholds, hfind⟩ := hv.exists_holds hread
    rw [hplan]
    refine ⟨⟨rfl, iff_of_true rfl hchanges, nofun, fun _ => ?_⟩, hv.refill hfind _⟩
    refine ⟨_, data, hholds, hfind, hapart, hfit, fun m => ?_, ?_⟩
    · exact Disk.find?_put_file hfind _ m
    · have hread' := (Vantage.holds_refill hfind (Edit.weave data 0 (Edit.sorted edits)) hv.solid hv.named hholds).read
      rwa [if_pos rfl] at hread'

/-- A run carries out the plan for its first path and goes on from there. -/
theorem fixFiles_cons (hv : v.Proper) (resolver : Resolver) (dry : Bool) (hp : ∀ n ∈ p.names, Path.IsName n)
    (ps : List Path) :
    (fixFiles (.ofResolver resolver parse) dry v (p :: ps)).1.outcome =
        (fixFiles (.ofResolver resolver parse) dry (v.carry (plan resolver parse dry v p).2) ps).1.outcome.map
          ((plan resolver parse dry v p).1 :: ·) ∧
      (fixFiles (.ofResolver resolver parse) dry v (p :: ps)).2 =
        (fixFiles (.ofResolver resolver parse) dry (v.carry (plan resolver parse dry v p).2) ps).2 := by
  obtain ⟨notes, hone⟩ := fixOne_eq hparse hv resolver dry hp
  have hnext : (⟨(v.carry (plan resolver parse dry v p).2).disk, v.cwd⟩ : Vantage) =
      v.carry (plan resolver parse dry v p).2 := by
    rw [← Vantage.cwd_carry v (plan resolver parse dry v p).2]
  rw [fixFiles, hone]
  dsimp only
  rw [hnext]
  exact ⟨rfl, rfl⟩

/-- What a plan writes, it writes into the file that the path leads to, and its report says so. -/
theorem holds_of_plan (hv : v.Proper) {q : Place} {c : Octets}
    (h : (plan resolver parse dry v p).2 = some (q, c)) :
    (plan resolver parse dry v p).1.written = true ∧
      ∃ data, v.Holds p (Path.ofPlace q) data ∧ v.disk.find? q = some (.file data) := by
  rcases plan_cases hparse resolver dry v p with ⟨hnone, -⟩ | ⟨edits, data, hread, hplan, -⟩
  · rw [hnone] at h
    cases h
  · rw [hplan] at h ⊢
    cases h
    exact ⟨rfl, data, hv.exists_holds hread⟩

theorem find?_carry (hv : v.Proper) {q : Place} {c : Octets} (h : (plan resolver parse dry v p).2 = some (q, c))
    (m : Place) : (v.refill q c).disk.find? m = if m = q then some (.file c) else v.disk.find? m := by
  obtain ⟨-, data, -, hq⟩ := holds_of_plan hparse hv h
  rw [Vantage.refill, Disk.find?_put_file hq]

/-- A run never fails. It fixes the files of its paths one after the other, and a place that holds none of the
files that it writes stays as it is. -/
theorem exists_course (hv : v.Proper) (resolver : Resolver) (dry : Bool)
    (hps : ∀ p ∈ ps, ∀ n ∈ p.names, Path.IsName n) :
    ∃ reports, (fixFiles (.ofResolver resolver parse) dry v ps).1.outcome = .ok reports ∧
      Course dry v.cwd v.disk ps reports (fixFiles (.ofResolver resolver parse) dry v ps).2 ∧
      ∀ m, (∀ step ∈ ps.zip reports, step.2.written = true → ∀ x, ¬ v.Holds step.1 (Path.ofPlace m) x) →
        (fixFiles (.ofResolver resolver parse) dry v ps).2.find? m = v.disk.find? m := by
  induction ps generalizing v with
  | nil => exact ⟨[], rfl, .done _, fun m _ => rfl⟩
  | cons p ps ih =>
      obtain ⟨hp, hps⟩ := List.forall_mem_cons.mp hps
      obtain ⟨hfixes, hproper⟩ := fixes_plan hparse hv resolver dry p
      obtain ⟨reports, houtcome, hcourse, hframe⟩ := ih hproper hps
      rw [Vantage.cwd_carry] at hcourse
      obtain ⟨hrest, hdisk⟩ := fixFiles_cons hparse hv resolver dry hp ps
      refine ⟨(plan resolver parse dry v p).1 :: reports, ?_, ?_, fun m hm => ?_⟩
      · rw [hrest, houtcome]
        rfl
      · rw [hdisk]
        exact .step hfixes hcourse
      · rw [List.zip_cons_cons, List.forall_mem_cons] at hm
        obtain ⟨hself, hothers⟩ := hm
        rw [hdisk]
        cases hplan : (plan resolver parse dry v p).2 with
        | none =>
            rw [hplan] at hframe
            exact hframe m hothers
        | some change =>
            obtain ⟨q, c⟩ := change
            obtain ⟨hwritten, data, hholds, hq⟩ := holds_of_plan hparse hv hplan
            have hne : m ≠ q := by
              rintro rfl
              exact hself hwritten data hholds
            have hothers' : ∀ step ∈ ps.zip reports, step.2.written = true →
                ∀ x, ¬ (v.refill q c).Holds step.1 (Path.ofPlace m) x := by
              intro step hstep hw x hx
              obtain ⟨y, hy⟩ := (Vantage.holds_refill_iff hq c m hv.solid hv.named).mp ⟨x, hx⟩
              exact hothers step hstep hw y hy
            rw [hplan] at hframe
            rw [hframe m hothers', Vantage.carry, find?_carry hparse hv hplan, if_neg hne]

omit hparse

/-- Each path gets one report, in their order. -/
theorem Course.reported {cwd : Place} {d d' : Disk} {reports : List FixReport} (h : Course dry cwd d ps reports d') :
    reports.map FixReport.path = ps := by
  induction h with
  | done d => rfl
  | step hfixes rest ih => rw [List.map_cons, hfixes.path, ih]


/-! ### Files that are apart -/

/-- The two paths do not have one true path. -/
def Distinct (v : Vantage) (a b : Path) : Prop :=
  ∀ k, v.resolve a = .ok k → v.resolve b ≠ .ok k

instance : Std.Symm (Distinct v) := ⟨fun _ _ h k hb ha => h k ha hb⟩

/-- The two paths do not lead to one file that can be read. -/
def Apart (v : Vantage) (a b : Path) : Prop :=
  ∀ q x y, v.Holds a (Path.ofPlace q) x → ¬ v.Holds b (Path.ofPlace q) y

theorem Distinct.apart {a b : Path} (h : Distinct v a b) : Apart v a b :=
  fun q _ _ hx hy => h (Path.ofPlace q) hx.resolve hy.resolve

theorem Apart.symm {a b : Path} (h : Apart v a b) : Apart v b a :=
  fun q x y hx hy => h q y x hy hx

theorem Apart.refill {a b : Path} {q : Place} {old : Octets} (hv : v.Proper)
    (hq : v.disk.find? q = some (.file old)) (c : Octets) (h : Apart v a b) : Apart (v.refill q c) a b := by
  intro m x y hx hy
  obtain ⟨x', hx'⟩ := (Vantage.holds_refill_iff hq c m hv.solid hv.named).mp ⟨x, hx⟩
  obtain ⟨y', hy'⟩ := (Vantage.holds_refill_iff hq c m hv.solid hv.named).mp ⟨y, hy⟩
  exact h m x' y' hx' hy'

/-- The plan for a file does not depend on what other files hold. -/
theorem plan_refill (hv : v.Proper) {q : Place} {old : Octets} (hq : v.disk.find? q = some (.file old)) (c : Octets)
    (hother : ∀ x, ¬ v.Holds p (Path.ofPlace q) x) :
    plan resolver parse dry (v.refill q c) p = plan resolver parse dry v p := by
  unfold plan
  cases hread : v.read p with
  | error e => rw [Vantage.read_refill_of_error hq c hread]
  | ok data =>
      obtain ⟨hholds, -⟩ := hv.exists_holds hread
      have hne : v.disk.placeOf v.cwd p ≠ q := fun heq => hother data (heq ▸ hholds)
      have hholds' := Vantage.holds_refill hq c hv.solid hv.named hholds
      rw [if_neg hne] at hholds'
      rw [hholds'.read, Vantage.placeOf_of_resolve hholds'.resolve]

variable (hparse : ∀ text, (parse text).WellFormed text.toList)

include hparse

/-- Where no two paths lead to one file, a run carries out the plans that are made at its beginning. -/
theorem fixFiles_apart (hv : v.Proper) (resolver : Resolver) (dry : Bool)
    (hps : ∀ p ∈ ps, ∀ n ∈ p.names, Path.IsName n) (hapart : ps.Pairwise (Apart v)) :
    (fixFiles (.ofResolver resolver parse) dry v ps).1.outcome =
        .ok (ps.map fun p => (plan resolver parse dry v p).1) ∧
      (∀ p ∈ ps, ∀ q c, (plan resolver parse dry v p).2 = some (q, c) →
        (fixFiles (.ofResolver resolver parse) dry v ps).2.find? q = some (.file c)) ∧
      ∀ m, (∀ p ∈ ps, ∀ c, (plan resolver parse dry v p).2 ≠ some (m, c)) →
        (fixFiles (.ofResolver resolver parse) dry v ps).2.find? m = v.disk.find? m := by
  induction ps generalizing v with
  | nil => exact ⟨rfl, List.forall_mem_nil _, fun m _ => rfl⟩
  | cons p ps ih =>
      obtain ⟨hp, hps⟩ := List.forall_mem_cons.mp hps
      obtain ⟨hfirst, hapart⟩ := List.pairwise_cons.mp hapart
      obtain ⟨hrest, hdisk⟩ := fixFiles_cons hparse hv resolver dry hp ps
      rw [hrest, hdisk]
      cases hplan : (plan resolver parse dry v p).2 with
      | none =>
          obtain ⟨houtcome, hwritten, hkept⟩ := ih hv hps hapart
          refine ⟨?_, List.forall_mem_cons.mpr ⟨?_, hwritten⟩, fun m hm => ?_⟩
          · rw [Vantage.carry, houtcome]
            rfl
          · rw [hplan]
            nofun
          · exact hkept m (List.forall_mem_cons.mp hm).2
      | some change =>
          obtain ⟨q, c⟩ := change
          obtain ⟨-, data, hholds, hq⟩ := holds_of_plan hparse hv hplan
          have hsame (b : Path) (hb : b ∈ ps) :
              plan resolver parse dry (v.refill q c) b = plan resolver parse dry v b :=
            plan_refill hv hq c fun y => hfirst b hb q data y hholds
          obtain ⟨houtcome, hwritten, hkept⟩ := ih (hv.refill hq c) hps
            (hapart.imp fun h => h.refill hv hq c)
          -- No other plan writes the file that the first one writes.
          have hfree : ∀ b ∈ ps, ∀ c', (plan resolver parse dry (v.refill q c) b).2 ≠ some (q, c') := by
            intro b hb c' hc'
            rw [hsame b hb] at hc'
            obtain ⟨-, y, hy, -⟩ := holds_of_plan hparse hv hc'
            exact hfirst b hb q data y hholds hy
          refine ⟨?_, List.forall_mem_cons.mpr ⟨?_, ?_⟩, fun m hm => ?_⟩
          · rw [Vantage.carry, houtcome, List.map_cons,
              List.map_congr_left fun b hb => congrArg Prod.fst (hsame b hb)]
            rfl
          · intro q' c' heq
            rw [hplan] at heq
            cases heq
            rw [Vantage.carry, hkept q hfree, find?_carry hparse hv hplan, if_pos rfl]
          · intro b hb q' c' heq
            rw [← hsame b hb] at heq
            exact hwritten b hb q' c' heq
          · obtain ⟨hself, hrest⟩ := List.forall_mem_cons.mp hm
            have hne : m ≠ q := by
              rintro rfl
              exact hself c hplan
            rw [Vantage.carry, hkept m fun b hb c' => hsame b hb ▸ hrest b hb c', find?_carry hparse hv hplan, if_neg hne]


/-! ### Runs -/

/-- What a run over files that are apart leaves at a place is written by a plan, or was there before. -/
theorem find?_fixFiles (hv : v.Proper) (resolver : Resolver) (dry : Bool)
    (hps : ∀ p ∈ ps, ∀ n ∈ p.names, Path.IsName n) (hapart : ps.Pairwise (Apart v)) (m : Place) :
    (∃ p ∈ ps, ∃ c, (plan resolver parse dry v p).2 = some (m, c) ∧
      (fixFiles (.ofResolver resolver parse) dry v ps).2.find? m = some (.file c)) ∨
    (∀ p ∈ ps, ∀ c, (plan resolver parse dry v p).2 ≠ some (m, c)) ∧
      (fixFiles (.ofResolver resolver parse) dry v ps).2.find? m = v.disk.find? m := by
  obtain ⟨-, hwritten, hkept⟩ := fixFiles_apart hparse hv resolver dry hps hapart
  by_cases h : ∃ p ∈ ps, ∃ c, (plan resolver parse dry v p).2 = some (m, c)
  · obtain ⟨p, hp, c, hplan⟩ := h
    exact .inl ⟨p, hp, c, hplan, hwritten p hp m c hplan⟩
  · push Not at h
    exact .inr ⟨h, hkept m h⟩

omit hparse

/-! ### A run over three files -/

/-- The tree of a text in which nothing is told apart. -/
def bareTree (text : String) : Tree :=
  ⟨Utf8.encode text, .mk "program" 0 (Utf8.encode text).length none []⟩

theorem wellFormed_bareTree (text : String) : (bareTree text).WellFormed text.toList := by
  have hkind : (bareTree text).root.kind = "program" := rfl
  refine ⟨rfl, hkind, Nat.le_refl _, fun n hn => ?_⟩
  rcases Node.mem_preorder_iff.mp hn with rfl | ⟨c, hc, -⟩
  · have hclause : (bareTree text).root.kind ≠ Tree.clauseKind := by
      rw [hkind]
      decide
    have htype : (bareTree text).root.kind ∉ typeKinds := by
      rw [hkind]
      decide
    exact ⟨Nat.zero_le _, ⟨Utf8.isBorder_zero _, Utf8.isBorder_length _⟩, List.forall_mem_nil _, .nil,
      fun h => absurd h htype, fun _ => rfl, fun h => absurd h hclause, fun h => absurd h hclause,
      fun h => absurd h hclause⟩
  · cases hc

/-- The tree that the outline of a text gives, if it is well formed. -/
def soundParse (text : String) : Tree :=
  if (Php.parse text).WellFormed text.toList then Php.parse text else bareTree text

theorem wellFormed_soundParse (text : String) : (soundParse text).WellFormed text.toList := by
  unfold soundParse
  split_ifs with h
  · exact h
  · exact wellFormed_bareTree text

end Namesake.Batch
