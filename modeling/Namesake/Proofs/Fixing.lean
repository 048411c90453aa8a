import Namesake.Proofs.Overwrite
import Namesake.Proofs.Patch

/-! What fixing files does to a disk. `plan` says it for one file: its report, and what is to be written where.
A plan is made from the octets and the true place of the file alone, it can always be made, and carrying it out
changes nothing but this file. So in a run each file is fixed as if it were the only one, as long as no two paths
lead to one file, and what goes wrong with one file leaves all others alone. -/

namespace Namesake

open Text Syntax

variable {v : Vantage} {p k : Path} {q : Place} {data : Octets} {resolver : Resolver} {parse : String → Tree}

namespace Resolver

def nameAt (r : Resolver) (k : Path) : Except NoCandidate ClassName :=
  match r with
  | .table rows =>
    match Json.Fields.get? (tableKey k.render) rows with
    | none => .error (.notRegistered k.render)
    | some c => .ok c
  | .autoload _ rules =>
    match derived rules k.names with
    | [] => .error (.notDerived k.render)
    | c :: _ => .ok c

theorem best_eq_nameAt (r : Resolver) (hk : k.anchor = .root ∧ ∀ n ∈ k.names, Path.IsEntry n)
    (hself : v.resolve k = .ok k) : r.best v k.render = .ok (r.nameAt k) := by
  cases r with
  | autoload root rules => exact best_of_resolve hk hself
  | table rows =>
      rw [best, candidates, nameAt]
      cases Json.Fields.get? (tableKey k.render) rows <;> rfl

end Resolver

namespace Reconciler

/-- The edits that a text needs whose file has the true path `k`. -/
def proposal (resolver : Resolver) (parse : String → Tree) (k : Path) (text : String) :
    Except Failure (List Edit) :=
  match resolver.nameAt k with
  | .error cause => .error (.unresolved (.noName k.render cause))
  | .ok c =>
    match Corrections.ofTree (parse text) c with
    | .error ps => .error (.invalid ps)
    | .ok corrections => .ok corrections.edits

theorem reconcile_of_resolve {text language : String} (hk : k.anchor = .root ∧ ∀ n ∈ k.names, Path.IsEntry n)
    (hself : v.resolve k = .ok k) :
    (ofResolver resolver parse).reconcile v ⟨text, some (Location.ofFile k.render), language⟩ =
      proposal resolver parse k text := by
  have hbest : (ofResolver resolver parse).best v k.render = .ok (resolver.nameAt k) :=
    resolver.best_eq_nameAt hk hself
  rw [reconcile, compute_of_best _ _ hbest, proposal]
  cases resolver.nameAt k with
  | error cause => rfl
  | ok c =>
      simp only [ofResolver]
      cases Corrections.ofTree (parse text) c <;> rfl

/-- There is no class name, or there are edits that can be applied. -/
theorem proposal_cases {text : String} (ht : (parse text).WellFormed text.toList) (resolver : Resolver) (k : Path) :
    (∃ cause, proposal resolver parse k text = .error (.unresolved (.noName k.render cause))) ∨
    ∃ edits out, proposal resolver parse k text = .ok edits ∧ (Edit.sorted edits).Pairwise Edit.Before ∧
      (∀ e ∈ edits, e.stop ≤ (Utf8.encode text).length) ∧ Edit.applyAll edits text = .ok out ∧
      Utf8.encode out = Edit.weave (Utf8.encode text) 0 (Edit.sorted edits) := by
  unfold proposal
  cases resolver.nameAt k with
  | error cause => exact .inl ⟨cause, rfl⟩
  | ok c =>
      obtain ⟨corrections, out, hcorrections, -, hrest⟩ := Corrections.exists_patch ht c
      refine .inr ⟨corrections.edits, out, ?_, hrest⟩
      simp only [hcorrections]

end Reconciler

namespace Batch

/-- The edits that a file needs, by its octets, its path and its true path. -/
def draft (resolver : Resolver) (parse : String → Tree) (p k : Path) (data : Octets) :
    Except Failure (List Edit) :=
  match Utf8.decode? data with
  | .error e => .error (.undecodable e)
  | .ok text =>
    match Language.resolve none (some p) with
    | .error r => .error (.language r)
    | .ok _ => Reconciler.proposal resolver parse k text

/-- Why a source that cannot be read cannot be read. -/
def unread (p : Path) : Failure → Failure
  | .access ⟨.missing, _, _⟩ => .noFile p.render
  | e => e

/-- What fixing a file gives: its report, and what is to be written where, if anything is. -/
def plan (resolver : Resolver) (parse : String → Tree) (dry : Bool) (v : Vantage) (p : Path) :
    FixReport × Option (Place × Octets) :=
  match v.read p with
  | .error e => (⟨p, [], false, some (unread p e)⟩, none)
  | .ok data =>
    let q := v.disk.placeOf v.cwd p
    match draft resolver parse p (Path.ofPlace q) data with
    | .error e => (⟨p, [], false, some e⟩, none)
    | .ok edits =>
      if edits.isEmpty || dry then (⟨p, edits, false, none⟩, none)
      else (⟨p, edits, true, none⟩, some (q, Edit.weave data 0 (Edit.sorted edits)))

/-- Drafting edits fails in a way that concerns one file only, or gives edits that can be applied. -/
theorem draft_cases (hparse : ∀ text, (parse text).WellFormed text.toList) (resolver : Resolver) (p k : Path)
    (data : Octets) :
    (∃ e, draft resolver parse p k data = .error e ∧ isIsolated e = true) ∨
    ∃ edits text out, draft resolver parse p k data = .ok edits ∧ Utf8.decode? data = .ok text ∧
      (Edit.sorted edits).Pairwise Edit.Before ∧ (∀ e ∈ edits, e.stop ≤ data.length) ∧
      Edit.applyAll edits text = .ok out ∧ Utf8.encode out = Edit.weave data 0 (Edit.sorted edits) := by
  unfold draft
  cases hdata : Utf8.decode? data with
  | error e => exact .inl ⟨_, rfl, rfl⟩
  | ok text =>
      dsimp only
      cases Language.resolve none (some p) with
      | error r => exact .inl ⟨_, rfl, rfl⟩
      | ok l =>
          dsimp only
          rcases Reconciler.proposal_cases (hparse text) resolver k with
            ⟨cause, hproposal⟩ | ⟨edits, out, hproposal, hapart, hfit, happly, hout⟩
          · exact .inl ⟨_, hproposal, rfl⟩
          · rw [Utf8.encode_of_decode? hdata] at hfit hout
            exact .inr ⟨edits, text, out, hproposal, rfl, hapart, hfit, happly, hout⟩

/-- Is the report that of a file that was changed? -/
def Changes (dry : Bool) (report : FixReport) : Prop :=
  report.error = none ∧ report.edits ≠ [] ∧ dry = false

/-- A plan writes nothing, or it puts the edits of its report into the file that the path leads to. -/
theorem plan_cases (hparse : ∀ text, (parse text).WellFormed text.toList) (resolver : Resolver) (dry : Bool)
    (v : Vantage) (p : Path) :
    ((plan resolver parse dry v p).2 = none ∧ (plan resolver parse dry v p).1.path = p ∧
      (plan resolver parse dry v p).1.written = false ∧ ¬ Changes dry (plan resolver parse dry v p).1) ∨
    ∃ edits data, v.read p = .ok data ∧ plan resolver parse dry v p =
        (⟨p, edits, true, none⟩, some (v.disk.placeOf v.cwd p, Edit.weave data 0 (Edit.sorted edits))) ∧
      Changes dry ⟨p, edits, true, none⟩ ∧ (Edit.sorted edits).Pairwise Edit.Before ∧
      ∀ e ∈ edits, e.stop ≤ data.length := by
  unfold plan
  cases hread : v.read p with
  | error e => exact .inl ⟨rfl, rfl, rfl, fun h => nomatch h.1⟩
  | ok data =>
      dsimp only
      rcases draft_cases hparse resolver p (Path.ofPlace (v.disk.placeOf v.cwd p)) data with
        ⟨e, hdraft, -⟩ | ⟨edits, text, out, hdraft, -, hapart, hfit, -, -⟩
      · rw [hdraft]
        exact .inl ⟨rfl, rfl, rfl, fun h => nomatch h.1⟩
      · rw [hdraft]
        dsimp only
        by_cases hidle : (edits.isEmpty || dry) = true
        · rw [if_pos hidle]
          refine .inl ⟨rfl, rfl, rfl, fun h => ?_⟩
          rw [List.isEmpty_eq_false_iff.mpr h.2.1, h.2.2] at hidle
          cases hidle
        · rw [if_neg hidle]
          rw [Bool.or_eq_true, List.isEmpty_iff, not_or, Bool.not_eq_true] at hidle
          exact .inr ⟨edits, data, rfl, rfl, ⟨rfl, hidle⟩, hapart, hfit⟩

end Batch

/-! ### Carrying a plan out -/

namespace Vantage

/-- A disk as seen from a directory with names that a system would allow and no links on the way to where
relative paths start from. -/
structure Proper (v : Vantage) : Prop where
  named : v.disk.Named
  solid : v.disk.Solid v.cwd

/-- The vantage after octets were written at a place, if any were. -/
def carry (v : Vantage) : Option (Place × Octets) → Vantage
  | none => v
  | some (q, c) => v.refill q c

@[simp] theorem cwd_carry (v : Vantage) (change : Option (Place × Octets)) : (v.carry change).cwd = v.cwd := by
  cases change <;> rfl

theorem Proper.refill {old : Octets} (hv : v.Proper) (hq : v.disk.find? q = some (.file old)) (c : Octets) :
    (v.refill q c).Proper :=
  ⟨hv.named.put_file hq c, hv.solid.put_file hq c⟩

theorem Proper.exists_holds (hv : v.Proper) (h : v.read p = .ok data) :
    v.Holds p (Path.ofPlace (v.disk.placeOf v.cwd p)) data ∧
      v.disk.find? (v.disk.placeOf v.cwd p) = some (.file data) := by
  obtain ⟨q, hholds, rfl, hfind⟩ := Vantage.exists_holds hv.solid hv.named h
  exact ⟨hholds, hfind⟩

end Vantage

namespace Batch

theorem readText_of_error {e : Failure} (hp : ∀ n ∈ p.names, Path.IsName n) (h : v.read p = .error e) :
    SourceUnit.readText v p.render = .error (unread p e) := by
  rw [SourceUnit.readText, Path.ofString_render hp, h]
  cases e with
  | access a =>
      obtain ⟨t, path, second⟩ := a
      cases t <;> rfl
  | _ => rfl

/-- Whatever keeps a file from being read concerns this file only. -/
theorem isLocal_unread {e : Failure} (h : v.read p = .error e) : (unread p e).isLocal = true := by
  rw [Vantage.read] at h
  split_ifs at h
  · cases h
    rfl
  · cases hread : v.disk.read v.cwd p with
    | ok data =>
        rw [hread] at h
        cases h
    | error t =>
        rw [hread] at h
        cases h
        cases t <;> rfl

theorem isIsolated_of_isLocal {e : Failure} (h : e.isLocal = true) : isIsolated e = true := by
  cases e <;> first | rfl | exact h

variable (hparse : ∀ text, (parse text).WellFormed text.toList)

include hparse

/-- Fixing a file that can be read is drafting its edits and putting them into the file. -/
theorem fixFile_eq (hv : v.Proper) (resolver : Resolver) (dry : Bool) (hp : ∀ n ∈ p.names, Path.IsName n)
    (h : v.read p = .ok data) :
    ∃ note : List Edit → Note, fixFile (.ofResolver resolver parse) v dry p =
      (draft resolver parse p (Path.ofPlace (v.disk.placeOf v.cwd p)) data).map fun edits =>
        if edits.isEmpty || dry then ⟨⟨p, edits, false, none⟩, v.disk, []⟩
        else ⟨⟨p, edits, true, none⟩,
          (v.refill (v.disk.placeOf v.cwd p) (Edit.weave data 0 (Edit.sorted edits))).disk, [note edits]⟩ := by
  obtain ⟨hholds, hfind⟩ := hv.exists_holds h
  obtain ⟨hk, hself⟩ := Vantage.resolve_idem hv.named (.inr hv.solid) h hholds.resolve
  have hcases := draft_cases hparse resolver p (Path.ofPlace (v.disk.placeOf v.cwd p)) data
  rw [fixFile, SourceUnit.ofFile_of_holds hp hholds]
  unfold draft at hcases ⊢
  refine ⟨fun edits => ⟨.info, s!"Fixed {p.render} ({edits.length} edit(s))"⟩, ?_⟩
  cases hdata : Utf8.decode? data with
  | error e => rfl
  | ok text =>
      rw [hdata] at hcases
      cases hlanguage : Language.resolve none (some p) with
      | error r => rfl
      | ok l =>
          rw [hlanguage] at hcases
          dsimp only [bind, Except.bind] at hcases ⊢
          rw [Reconciler.reconcile_of_resolve hk hself]
          rcases hcases with ⟨e, hdraft, -⟩ | ⟨edits, text', out, hdraft, htext, -, -, happly, hout⟩
          · rw [hdraft]
            rfl
          · obtain rfl : text = text' := Except.ok.inj htext
            rw [hdraft]
            dsimp only [Except.map]
            by_cases hidle : (edits.isEmpty || dry) = true
            · rw [if_pos hidle, if_pos hidle]
              rfl
            · rw [if_neg hidle, if_neg hidle, writeEdited, happly]
              dsimp only
              rw [hout, Vantage.write_of_holds hv.solid hv.named hholds]
              rfl

/-- Fixing a file is carrying out its plan; it never fails. -/
theorem fixOne_eq (hv : v.Proper) (resolver : Resolver) (dry : Bool) (hp : ∀ n ∈ p.names, Path.IsName n) :
    ∃ notes, fixOne (.ofResolver resolver parse) v dry p =
      .ok ⟨(plan resolver parse dry v p).1, (v.carry (plan resolver parse dry v p).2).disk, notes⟩ := by
  unfold plan
  cases hread : v.read p with
  | error e =>
      have hfix : fixFile (.ofResolver resolver parse) v dry p = .error (unread p e) := by
        rw [fixFile, SourceUnit.ofFile, readText_of_error hp hread]
        rfl
      rw [fixOne, hfix]
      dsimp only
      rw [if_pos (isIsolated_of_isLocal (isLocal_unread hread))]
      exact ⟨_, rfl⟩
  | ok data =>
      obtain ⟨note, hfix⟩ := fixFile_eq hparse hv resolver dry hp hread
      rw [fixOne, hfix]
      dsimp only
      rcases draft_cases hparse resolver p (Path.ofPlace (v.disk.placeOf v.cwd p)) data with
        ⟨e, hdraft, hlocal⟩ | ⟨edits, text, out, hdraft, -⟩
      · rw [hdraft]
        dsimp only [Except.map]
        rw [if_pos hlocal]
        exact ⟨_, rfl⟩
      · rw [hdraft]
        dsimp only [Except.map]
        by_cases hidle : (edits.isEmpty || dry) = true
        · rw [if_pos hidle, if_pos hidle]
          exact ⟨_, rfl⟩
        · rw [if_neg hidle, if_neg hidle]
          exact ⟨_, rfl⟩

end Batch

end Namesake
