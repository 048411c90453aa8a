import Namesake.Proofs.Incremental

/-! What a record remembers. A visit is a file that a check looked at, the disk as it was then, and what the
check said. Of the visits to a file the latest one counts: the record agrees with a history of visits if for
each true path it has the digest of the octets of the latest visit, where this one found the file right, and
no entry where it did not or where there was none. Settling a report agrees with the history that has one more
visit, and writing the record into its file and reading it back loses nothing. -/

namespace Namesake

open Text Json

/-- Different paths are written differently. -/
theorem Path.render_ne {q q' : Path} (hq : ∀ n ∈ q.names, Path.IsName n) (hq' : ∀ n ∈ q'.names, Path.IsName n)
    (hne : q ≠ q') : q'.render ≠ q.render := by
  intro heq
  apply hne
  calc q = Path.ofString q.render := (Path.ofString_render hq).symm
    _ = Path.ofString q'.render := by rw [heq]
    _ = q' := Path.ofString_render hq'

/-- A file that a check looked at: the disk as it was then, and what was said about the file. -/
structure Visit where
  vantage : Vantage
  report : Report

namespace Visit

def target (x : Visit) : Except Failure Path :=
  x.vantage.resolve x.report.path

def content (x : Visit) : Except Failure Octets :=
  x.vantage.read x.report.path

def isClean (x : Visit) : Bool :=
  Incremental.isClean x.report

/-- What is remembered of a visit. -/
def digest? (x : Visit) : Option String :=
  if x.isClean then x.content.toOption.map Digest.sha256 else none

/-- The latest visit to a file, in a history whose latest visits come first. -/
def latest (h : List Visit) (q : Path) : Option Visit :=
  h.find? fun x => x.target = .ok q

/-- The visits of one check, the latest one first. -/
def ofReports (v : Vantage) (reports : List Report) : List Visit :=
  (reports.map (Visit.mk v)).reverse

variable {x : Visit} {h : List Visit} {q : Path}

theorem latest_cons_of_eq (hx : x.target = .ok q) : latest (x :: h) q = some x :=
  List.find?_cons_of_pos (decide_eq_true hx)

theorem latest_cons_of_ne (hx : x.target ≠ .ok q) : latest (x :: h) q = latest h q :=
  List.find?_cons_of_neg fun heq => hx (of_decide_eq_true heq)

theorem of_latest (hx : latest h q = some x) : x ∈ h ∧ x.target = .ok q := by
  have htarget := List.find?_some hx
  rw [decide_eq_true_eq] at htarget
  exact ⟨List.mem_of_find?_eq_some hx, htarget⟩

theorem ofReports_cons (v : Vantage) (report : Report) (reports : List Report) (h : List Visit) :
    ofReports v (report :: reports) ++ h = ofReports v reports ++ ⟨v, report⟩ :: h := by
  rw [ofReports, List.map_cons, List.reverse_cons, List.append_assoc]
  rfl

theorem mem_ofReports {v : Vantage} {reports : List Report} :
    x ∈ ofReports v reports ↔ ∃ report ∈ reports, ⟨v, report⟩ = x := by
  rw [ofReports, List.mem_reverse, List.mem_map]

theorem digest?_eq_some {d : String} (hd : x.digest? = some d) :
    x.isClean = true ∧ ∃ data, x.content = .ok data ∧ Digest.sha256 data = d := by
  rw [digest?] at hd
  split_ifs at hd with hclean
  obtain ⟨data, hdata, rfl⟩ := Option.map_eq_some_iff.mp hd
  cases hcontent : x.content with
  | error e =>
      rw [hcontent] at hdata
      cases hdata
  | ok data' =>
      rw [hcontent] at hdata
      cases hdata
      exact ⟨hclean, data, rfl, rfl⟩

theorem digest?_of_clean {data : Octets} (hclean : x.isClean = true) (hdata : x.content = .ok data) :
    x.digest? = some (Digest.sha256 data) := by
  rw [digest?, if_pos hclean, hdata]
  rfl

theorem digest?_of_not_clean (hclean : x.isClean = false) : x.digest? = none := by
  rw [digest?, hclean]
  rfl

end Visit

namespace Incremental

/-- The record has one entry for each file whose latest visit found it right, with the digest of what was found
there, and no other. -/
structure Agrees (known : Freshness) (h : List Visit) : Prop where
  distinct : (known.digests.map Prod.fst).Nodup
  digests : ∀ q : Path, (∀ n ∈ q.names, Path.IsName n) →
    Fields.get? q.render known.digests = (Visit.latest h q).bind Visit.digest?

variable {known known' : Freshness} {h : List Visit} {v : Vantage} {report : Report} {q : Path}

theorem agrees_of_empty (hknown : known.digests = []) : Agrees known [] := by
  constructor
  · rw [hknown]
    exact List.nodup_nil
  · intro q hq
    rw [hknown]
    rfl

/-- One more visit changes the entry of its true path to what is remembered of it. -/
theorem Agrees.cons {x : Visit} {digests : Fields String} (hag : Agrees known h) (hx : x.target = .ok q)
    (hq : ∀ n ∈ q.names, Path.IsName n) (hdistinct : (digests.map Prod.fst).Nodup)
    (hget : ∀ k, Fields.get? k digests = if k = q.render then x.digest? else Fields.get? k known.digests) :
    Agrees ⟨digests⟩ (x :: h) := by
  refine ⟨hdistinct, fun q' hq' => ?_⟩
  by_cases heq : q = q'
  · subst heq
    rw [hget, if_pos rfl, Visit.latest_cons_of_eq hx]
    rfl
  · have hne : x.target ≠ .ok q' := by
      intro htarget
      exact heq (Except.ok.inj (hx.symm.trans htarget))
    rw [hget, if_neg (Path.render_ne hq hq' heq), Visit.latest_cons_of_ne hne]
    exact hag.digests q' hq'

/-- What settling one report preserves. -/
theorem Agrees.settle (hag : Agrees known h) (hcwd : ∀ n ∈ v.cwd, Path.IsName n)
    (hp : ∀ n ∈ report.path.names, Path.IsName n) (hsettle : Incremental.settle v known report = .ok known') :
    Agrees known' (⟨v, report⟩ :: h) := by
  rw [Incremental.settle] at hsettle
  by_cases hreport : isClean report = true
  · have hclean : (Visit.mk v report).isClean = true := hreport
    rw [if_pos hreport] at hsettle
    obtain ⟨q, data, hholds⟩ := Freshness.holds_of_mark hsettle
    rw [Freshness.mark_of_holds known hholds] at hsettle
    cases hsettle
    have htarget : (Visit.mk v report).target = .ok q := hholds.resolve
    apply hag.cons htarget (Vantage.isName_of_resolve hcwd hp hholds.resolve) (nodup_set hag.distinct _ _)
    intro k
    rw [Fields.get?_set, Visit.digest?_of_clean hclean hholds.read]
  · have hclean : (Visit.mk v report).isClean = false := Bool.eq_false_of_not_eq_true hreport
    rw [if_neg hreport] at hsettle
    obtain ⟨q, hres⟩ := Freshness.resolve_of_forget hsettle
    rw [Freshness.forget_of_resolve known hres] at hsettle
    cases hsettle
    have htarget : (Visit.mk v report).target = .ok q := hres
    apply hag.cons htarget (Vantage.isName_of_resolve hcwd hp hres) (nodup_erase hag.distinct _)
    intro k
    rw [get?_erase, Visit.digest?_of_not_clean hclean]

/-- What settling the reports of a check preserves. -/
theorem Agrees.settleAll {reports : List Report} (hag : Agrees known h) (hcwd : ∀ n ∈ v.cwd, Path.IsName n)
    (hp : ∀ report ∈ reports, ∀ n ∈ report.path.names, Path.IsName n)
    (hsettle : Incremental.settleAll v known reports = .ok known') : Agrees known' (Visit.ofReports v reports ++ h) := by
  induction reports generalizing known h with
  | nil =>
      cases hsettle
      exact hag
  | cons report reports ih =>
      obtain ⟨hreport, hreports⟩ := List.forall_mem_cons.mp hp
      rw [Incremental.settleAll, List.foldlM_cons] at hsettle
      obtain ⟨first, hone, hrest⟩ := bind_eq_ok_iff.mp hsettle
      rw [Visit.ofReports_cons]
      exact ih (hag.settle hcwd hreport hone) hreports hrest

/-- A record that is read back agrees with what the written one agrees with. -/
theorem Agrees.of_load {file : Path} (hag : Agrees known h) (hread : v.read file = .ok known.content)
    (hload : (Freshness.load v file).outcome = .ok known') : Agrees known' h := by
  obtain ⟨hdistinct, hget⟩ := Freshness.get?_of_load hread hag.distinct hload
  constructor
  · exact hdistinct
  · intro q hq
    rw [hget, hag.digests q hq]

/-- The record has no entry for a file whose latest visit did not find it right. -/
theorem Agrees.get?_of_not_clean (hag : Agrees known h) (hq : ∀ n ∈ q.names, Path.IsName n) {x : Visit}
    (hx : Visit.latest h q = some x) (hclean : x.isClean = false) : Fields.get? q.render known.digests = none := by
  rw [hag.digests q hq, hx, Option.bind_some, Visit.digest?_of_not_clean hclean]

/-- Where no two contents share a digest, a file counts as known exactly when its latest visit found it right
and it holds now what it held then. -/
theorem Agrees.isStale_eq_false_iff {contents : Set Octets} (hag : Agrees known h)
    (hinj : Set.InjOn Digest.sha256 contents) {p : Path} (hres : v.resolve p = .ok q)
    (hq : ∀ n ∈ q.names, Path.IsName n) (hnow : ∀ data, v.read p = .ok data → data ∈ contents)
    (hthen : ∀ x ∈ h, x.isClean = true → ∀ data, x.content = .ok data → data ∈ contents) :
    FileList.isStale known v p = false ↔ ∃ x, Visit.latest h q = some x ∧ x.isClean = true ∧
      ∃ data, x.content = .ok data ∧ v.read p = .ok data := by
  rw [FileList.isStale_eq_false_iff known hres, hag.digests q hq]
  constructor
  · rintro ⟨data, hread, hdigest⟩
    obtain ⟨x, hx, hxd⟩ := Option.bind_eq_some_iff.mp hdigest
    obtain ⟨hclean, data', hcontent, hsame⟩ := Visit.digest?_eq_some hxd
    have hthen' := hthen x (Visit.of_latest hx).1 hclean data' hcontent
    obtain rfl : data' = data := hinj hthen' (hnow data hread) hsame
    exact ⟨x, hx, hclean, data', hcontent, hread⟩
  · rintro ⟨x, hx, hclean, data, hcontent, hread⟩
    refine ⟨data, hread, ?_⟩
    rw [hx, Option.bind_some, Visit.digest?_of_clean hclean hcontent]

end Incremental

end Namesake
