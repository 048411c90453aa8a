import Mathlib.Tactic
import Namesake.Host.CommandLine
import Namesake.Proofs.Outcomes

/-! Actions in a scene, and the command that checks. An action that is done in a scene ends with a value or a
failure in another one; an action after another one begins in the scene the first one leaves. The command
that checks is such a chain: it asks for the settings and the mapping, reports what it finds, and keeps a
record only where one was asked for. -/

namespace Namesake.Host

open Syntax

namespace Act

variable {α β : Type} {a : Act α} {f : α → Act β} {s s' : Scene}

/-- How an action ends in a scene, and the scene it leaves. -/
def exec (a : Act α) (s : Scene) : Except Failure α × Scene :=
  a.run.run s

theorem exec_bind (a : Act α) (f : α → Act β) (s : Scene) :
    (a >>= f).exec s =
      match a.exec s with
      | (.ok x, s') => (f x).exec s'
      | (.error e, s') => (.error e, s') := by
  simp only [exec, ExceptT.run_bind, StateT.run_bind]
  rcases a.run.run s with ⟨x | x, s'⟩ <;> rfl

theorem exec_bind_of_ok {x : α} (h : a.exec s = (.ok x, s')) : (a >>= f).exec s = (f x).exec s' := by
  rw [exec_bind, h]

@[simp] theorem exec_pure (x : α) (s : Scene) : (pure x : Act α).exec s = (.ok x, s) := rfl

@[simp] theorem exec_throw (e : Failure) (s : Scene) : (throw e : Act α).exec s = (.error e, s) := rfl

@[simp] theorem exec_get (s : Scene) : (get : Act Scene).exec s = (.ok s, s) := rfl

@[simp] theorem exec_vantage (s : Scene) : vantage.exec s = (.ok ⟨s.disk, s.cwd⟩, s) := rfl

@[simp] theorem exec_demand (o : Except Failure α) (s : Scene) : (demand o).exec s = (o, s) := by
  cases o <;> rfl

@[simp] theorem exec_note (notes : List Note) (s : Scene) :
    (note notes).exec s = (.ok (), { s with notes := s.notes ++ notes }) := rfl

@[simp] theorem exec_say (lines : List String) (s : Scene) :
    (say lines).exec s = (.ok (), { s with printed := s.printed ++ lines }) := rfl

@[simp] theorem exec_setDisk (d : Disk) (s : Scene) : (setDisk d).exec s = (.ok (), { s with disk := d }) := rfl

@[simp] theorem exec_perform (r : Run α) (s : Scene) :
    (perform r).exec s = (r.outcome, { s with notes := s.notes ++ r.notes }) := by
  rw [perform, exec_bind, exec_note]
  dsimp only
  rw [exec_demand]

end Act

namespace CommandLine

/-- The settings that options ask for in a scene. -/
def settingsIn (ws : List Word) (s : Scene) : Except Failure Settings :=
  match (valuesOf .root ws).getLast?.mapM pathWord with
  | .error e => .error e
  | .ok root =>
    Settings.make ⟨s.disk, s.cwd⟩ s.environment (root.map Path.render) (valuesOf .included ws)
      (valuesOf .excluded ws)

theorem exec_settings (ws : List Word) (s : Scene) : (settings ws).exec s = (settingsIn ws s, s) := by
  rw [settings, settingsIn, Act.exec_bind, Act.exec_demand]
  cases (valuesOf .root ws).getLast?.mapM pathWord with
  | error e => rfl
  | ok root => simp only [Act.exec_bind, Act.exec_get, Act.exec_vantage, Act.exec_demand]

theorem exec_reconciler (parse : String → Tree) (st : Settings) (s : Scene) :
    ∃ notes, (reconciler parse st).exec s =
      ((Resolver.ofManifest ⟨s.disk, s.cwd⟩ st.root).outcome.map (Reconciler.ofResolver · parse),
        { s with notes := notes }) := by
  refine ⟨s.notes ++ (Resolver.ofManifest ⟨s.disk, s.cwd⟩ st.root).notes, ?_⟩
  simp only [reconciler, Act.exec_bind, Act.exec_vantage, Act.exec_perform]
  cases (Resolver.ofManifest ⟨s.disk, s.cwd⟩ st.root).outcome <;> rfl

/-- What a check finds in the files of a project, or of a part of it, which it may pass over by a record. -/
def examineIn (parse : String → Tree) (st : Settings) (r : Resolver) (v : Vantage) (known : Option Freshness)
    (sub : Option Path) : Except Failure (List Report) :=
  match ((FileList.ofSettings st).files v known sub).outcome with
  | .error e => .error e
  | .ok files => (Batch.checkFiles (.ofResolver r parse) v files).outcome

theorem examineIn_eq_ok_iff {parse : String → Tree} {st : Settings} {r : Resolver} {v : Vantage}
    {known : Option Freshness} {sub : Option Path} {reports : List Report} :
    examineIn parse st r v known sub = .ok reports ↔ ∃ files,
      ((FileList.ofSettings st).files v known sub).outcome = .ok files ∧
        (Batch.checkFiles (.ofResolver r parse) v files).outcome = .ok reports := by
  rw [examineIn]
  cases ((FileList.ofSettings st).files v known sub).outcome <;> simp

def examine (parse : String → Tree) (st : Settings) (r : Resolver) (v : Vantage) (known : Option Freshness) :
    Except Failure (List Report) :=
  examineIn parse st r v known none

def statusOf (reports : List Report) : Nat :=
  if Report.total reports = 0 then success else trouble

/-- The disk with the record after the reports of a check, where a record is kept. -/
def settled (st : Settings) (v : Vantage) (known : Option Freshness) (reports : List Report) :
    Except Failure (Option Disk) :=
  match known with
  | none => .ok none
  | some k => ((Incremental.settleAll v k reports).bind (Freshness.save · v st.cachePath)).map some

/-- The part of a check after the record has been read. -/
def reportIn (parse : String → Tree) (st : Settings) (r : Resolver) (v : Vantage) (known : Option Freshness)
    (sub : Option Path) : Act Nat := do
  let files ← Act.perform ((FileList.ofSettings st).files v known sub)
  let reports ← Act.perform (Batch.checkFiles (.ofResolver r parse) v files)
  Act.say (Report.lines reports)
  match known with
  | none => pure ()
  | some k =>
    let k ← Act.demand (Incremental.settleAll v k reports)
    Act.setDisk (← Act.demand (k.save v st.cachePath))
  return statusOf reports

/-- The part of a check of the whole project after the record has been read. -/
def reportWith (parse : String → Tree) (st : Settings) (r : Resolver) (v : Vantage) (known : Option Freshness) :
    Act Nat :=
  reportIn parse st r v known none

/-- Once the files are looked at their reports are shown; then the record is kept. -/
theorem exec_reportIn (parse : String → Tree) (st : Settings) (r : Resolver) (v : Vantage) (known : Option Freshness)
    (sub : Option Path) (s : Scene) :
    ∃ notes, (reportIn parse st r v known sub).exec s =
      match examineIn parse st r v known sub with
      | .error e => (.error e, { s with notes := notes })
      | .ok reports =>
        match settled st v known reports with
        | .error e => (.error e, { s with printed := s.printed ++ Report.lines reports, notes := notes })
        | .ok d => (.ok (statusOf reports),
            { s with printed := s.printed ++ Report.lines reports, notes := notes, disk := d.getD s.disk }) := by
  simp only [reportIn, examineIn, Act.exec_bind, Act.exec_perform]
  cases ((FileList.ofSettings st).files v known sub).outcome with
  | error e => exact ⟨_, rfl⟩
  | ok files =>
      cases hreports : (Batch.checkFiles (.ofResolver r parse) v files).outcome with
      | error e =>
          simp only [hreports]
          exact ⟨_, rfl⟩
      | ok reports =>
          simp only [hreports, Act.exec_say]
          cases known with
          | none => exact ⟨_, rfl⟩
          | some known =>
              simp only [settled, Act.exec_bind, Act.exec_demand]
              cases Incremental.settleAll v known reports with
              | error e => exact ⟨_, rfl⟩
              | ok k =>
                  simp only [Except.bind]
                  cases k.save v st.cachePath with
                  | error e => exact ⟨_, rfl⟩
                  | ok d => exact ⟨_, rfl⟩

theorem exec_reportWith_complete (parse : String → Tree) (st : Settings) (r : Resolver) (v : Vantage) (s : Scene) :
    ∃ notes, (reportWith parse st r v none).exec s =
      match examine parse st r v none with
      | .error e => (.error e, { s with notes := notes })
      | .ok reports => (.ok (statusOf reports),
          { s with printed := s.printed ++ Report.lines reports, notes := notes }) :=
  exec_reportIn parse st r v none none s

theorem exec_reportWith_incremental (parse : String → Tree) (st : Settings) (r : Resolver) (v : Vantage)
    (known : Freshness) (s : Scene) :
    ∃ notes, (reportWith parse st r v (some known)).exec s =
      match examine parse st r v (some known) with
      | .error e => (.error e, { s with notes := notes })
      | .ok reports =>
        match (Incremental.settleAll v known reports).bind (Freshness.save · v st.cachePath) with
        | .error e => (.error e, { s with printed := s.printed ++ Report.lines reports, notes := notes })
        | .ok d => (.ok (statusOf reports),
            { s with printed := s.printed ++ Report.lines reports, notes := notes, disk := d }) := by
  obtain ⟨notes, h⟩ := exec_reportIn parse st r v (some known) none s
  refine ⟨notes, h.trans ?_⟩
  rw [examine]
  cases examineIn parse st r v (some known) none with
  | error e => rfl
  | ok reports =>
      dsimp only [settled]
      cases (Incremental.settleAll v known reports).bind (Freshness.save · v st.cachePath) <;> rfl

/-- A check asks for the settings, then for the mapping, then for the record where one is asked for; the rest
is done with these. -/
theorem exec_checkIn (parse : String → Tree) (ws : List Word) (sub : Option Path) (s : Scene) :
    ∃ notes, (check parse ws sub).exec s =
      match settingsIn ws s with
      | .error e => (.error e, { s with notes := notes })
      | .ok st =>
        match (Resolver.ofManifest ⟨s.disk, s.cwd⟩ st.root).outcome with
        | .error e => (.error e, { s with notes := notes })
        | .ok r =>
          if prevails .incremental .complete ws then
            match (Freshness.load ⟨s.disk, s.cwd⟩ st.cachePath).outcome with
            | .error e => (.error e, { s with notes := notes })
            | .ok known => (reportIn parse st r ⟨s.disk, s.cwd⟩ (some known) sub).exec { s with notes := notes }
          else (reportIn parse st r ⟨s.disk, s.cwd⟩ none sub).exec { s with notes := notes } := by
  rw [check, Act.exec_bind, exec_settings]
  cases hst : settingsIn ws s with
  | error e => exact ⟨s.notes, rfl⟩
  | ok st =>
      obtain ⟨notes, hrec⟩ := exec_reconciler parse st s
      dsimp only
      rw [Act.exec_bind, hrec]
      cases hr : (Resolver.ofManifest ⟨s.disk, s.cwd⟩ st.root).outcome with
      | error e => exact ⟨notes, rfl⟩
      | ok r =>
          dsimp only [Except.map]
          rw [Act.exec_bind, Act.exec_vantage]
          dsimp only
          by_cases hinc : prevails .incremental .complete ws = true
          · simp only [if_pos hinc]
            rw [Act.exec_bind, map_eq_pure_bind, Act.exec_bind, Act.exec_perform]
            cases hload : (Freshness.load ⟨s.disk, s.cwd⟩ st.cachePath).outcome with
            | error e => exact ⟨_, rfl⟩
            | ok known => exact ⟨_, rfl⟩
          · simp only [if_neg hinc]
            rw [Act.exec_bind]
            exact ⟨notes, rfl⟩

theorem exec_check (parse : String → Tree) (ws : List Word) (s : Scene) :
    ∃ notes, (check parse ws none).exec s =
      match settingsIn ws s with
      | .error e => (.error e, { s with notes := notes })
      | .ok st =>
        match (Resolver.ofManifest ⟨s.disk, s.cwd⟩ st.root).outcome with
        | .error e => (.error e, { s with notes := notes })
        | .ok r =>
          if prevails .incremental .complete ws then
            match (Freshness.load ⟨s.disk, s.cwd⟩ st.cachePath).outcome with
            | .error e => (.error e, { s with notes := notes })
            | .ok known => (reportWith parse st r ⟨s.disk, s.cwd⟩ (some known)).exec { s with notes := notes }
          else (reportWith parse st r ⟨s.disk, s.cwd⟩ none).exec { s with notes := notes } :=
  exec_checkIn parse ws none s

/-! ### What a check works out -/

/-- What a check works out before it shows anything: the settings, the record that it goes by if it goes by
one, and the reports. -/
def survey (parse : String → Tree) (ws : List Word) (sub : Option Path) (s : Scene) :
    Except Failure (Settings × Option Freshness × List Report) :=
  match settingsIn ws s with
  | .error e => .error e
  | .ok st =>
    match (Resolver.ofManifest ⟨s.disk, s.cwd⟩ st.root).outcome with
    | .error e => .error e
    | .ok r =>
      if prevails .incremental .complete ws then
        match (Freshness.load ⟨s.disk, s.cwd⟩ st.cachePath).outcome with
        | .error e => .error e
        | .ok known => (examineIn parse st r ⟨s.disk, s.cwd⟩ (some known) sub).map (st, some known, ·)
      else (examineIn parse st r ⟨s.disk, s.cwd⟩ none sub).map (st, none, ·)

/-- A check works out its reports, shows them, and keeps the record. -/
theorem exec_check_of_survey (parse : String → Tree) (ws : List Word) (sub : Option Path) (s : Scene) :
    ∃ notes, (check parse ws sub).exec s =
      match survey parse ws sub s with
      | .error e => (.error e, { s with notes := notes })
      | .ok (st, known, reports) =>
        match settled st ⟨s.disk, s.cwd⟩ known reports with
        | .error e => (.error e, { s with printed := s.printed ++ Report.lines reports, notes := notes })
        | .ok d => (.ok (statusOf reports),
            { s with printed := s.printed ++ Report.lines reports, notes := notes, disk := d.getD s.disk }) := by
  obtain ⟨notes, hcheck⟩ := exec_checkIn parse ws sub s
  rw [hcheck, survey]
  cases settingsIn ws s with
  | error e => exact ⟨notes, rfl⟩
  | ok st =>
      dsimp only
      cases (Resolver.ofManifest ⟨s.disk, s.cwd⟩ st.root).outcome with
      | error e => exact ⟨notes, rfl⟩
      | ok r =>
          have hreport (known : Option Freshness) :
              ∃ notes', (reportIn parse st r ⟨s.disk, s.cwd⟩ known sub).exec { s with notes := notes } = _ :=
            exec_reportIn parse st r ⟨s.disk, s.cwd⟩ known sub { s with notes := notes }
          dsimp only
          split_ifs
          · cases (Freshness.load ⟨s.disk, s.cwd⟩ st.cachePath).outcome with
            | error e => exact ⟨notes, rfl⟩
            | ok known =>
                obtain ⟨notes', h⟩ := hreport (some known)
                dsimp only
                refine ⟨notes', h.trans ?_⟩
                cases examineIn parse st r ⟨s.disk, s.cwd⟩ (some known) sub <;> rfl
          · obtain ⟨notes', h⟩ := hreport none
            refine ⟨notes', h.trans ?_⟩
            cases examineIn parse st r ⟨s.disk, s.cwd⟩ none sub <;> rfl

/-- Where a check goes by a record, it has read it, and has looked at what the record does not vouch for. -/
theorem of_survey {parse : String → Tree} {ws : List Word} {sub : Option Path} {s : Scene} {st : Settings}
    {known : Freshness} {reports : List Report} (h : survey parse ws sub s = .ok (st, some known, reports)) :
    settingsIn ws s = .ok st ∧ (Freshness.load ⟨s.disk, s.cwd⟩ st.cachePath).outcome = .ok known ∧
      ∃ r, (Resolver.ofManifest ⟨s.disk, s.cwd⟩ st.root).outcome = .ok r ∧
        examineIn parse st r ⟨s.disk, s.cwd⟩ (some known) sub = .ok reports := by
  rw [survey] at h
  cases hst : settingsIn ws s with
  | error e =>
      rw [hst] at h
      cases h
  | ok st' =>
      simp only [hst] at h
      cases hr : (Resolver.ofManifest ⟨s.disk, s.cwd⟩ st'.root).outcome with
      | error e =>
          rw [hr] at h
          cases h
      | ok r =>
          simp only [hr] at h
          split_ifs at h
          · cases hload : (Freshness.load ⟨s.disk, s.cwd⟩ st'.cachePath).outcome with
            | error e =>
                rw [hload] at h
                cases h
            | ok k =>
                rw [hload] at h
                obtain ⟨found, hreports, heq⟩ := map_eq_ok_iff.mp h
                cases heq
                exact ⟨rfl, hload, r, hr, hreports⟩
          · obtain ⟨found, -, heq⟩ := map_eq_ok_iff.mp h
            cases heq

variable {parse : String → Tree} {ws : List Word} {s : Scene} {st : Settings} {r : Resolver}

/-- A check that looks at all files shows what it finds. -/
theorem exec_check_complete {reports : List Report} (hst : settingsIn ws s = .ok st)
    (hr : (Resolver.ofManifest ⟨s.disk, s.cwd⟩ st.root).outcome = .ok r)
    (hinc : prevails .incremental .complete ws = false)
    (hreports : examine parse st r ⟨s.disk, s.cwd⟩ none = .ok reports) :
    ∃ notes, (check parse ws none).exec s =
      (.ok (statusOf reports), { s with printed := s.printed ++ Report.lines reports, notes := notes }) := by
  obtain ⟨notes, hcheck⟩ := exec_check parse ws s
  obtain ⟨notes', hreport⟩ := exec_reportWith_complete parse st r ⟨s.disk, s.cwd⟩ { s with notes := notes }
  refine ⟨notes', ?_⟩
  rw [hcheck, hst]
  dsimp only
  rw [hr, hinc]
  dsimp only [Bool.false_eq_true]
  rw [if_neg Bool.false_ne_true, hreport, hreports]

/-- A check that passes over known files shows what it finds in the others, and keeps what it has learnt. -/
theorem exec_check_incremental {reports : List Report} {known k : Freshness} {d : Disk}
    (hst : settingsIn ws s = .ok st) (hr : (Resolver.ofManifest ⟨s.disk, s.cwd⟩ st.root).outcome = .ok r)
    (hinc : prevails .incremental .complete ws = true)
    (hload : (Freshness.load ⟨s.disk, s.cwd⟩ st.cachePath).outcome = .ok known)
    (hreports : examine parse st r ⟨s.disk, s.cwd⟩ (some known) = .ok reports)
    (hsettle : Incremental.settleAll ⟨s.disk, s.cwd⟩ known reports = .ok k)
    (hsave : k.save ⟨s.disk, s.cwd⟩ st.cachePath = .ok d) :
    ∃ notes, (check parse ws none).exec s =
      (.ok (statusOf reports), { s with printed := s.printed ++ Report.lines reports, notes := notes, disk := d }) := by
  obtain ⟨notes, hcheck⟩ := exec_check parse ws s
  obtain ⟨notes', hreport⟩ := exec_reportWith_incremental parse st r ⟨s.disk, s.cwd⟩ known { s with notes := notes }
  refine ⟨notes', ?_⟩
  rw [hcheck, hst]
  dsimp only
  rw [hr, hinc]
  dsimp only
  rw [if_pos rfl, hload]
  dsimp only
  rw [hreport, hreports]
  dsimp only
  rw [hsettle]
  dsimp only [Except.bind]
  rw [hsave]

end CommandLine

end Namesake.Host
