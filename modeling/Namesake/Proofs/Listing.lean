import Mathlib.Data.List.Lex
import Mathlib.Data.String.Basic
import Namesake.FileList
import Namesake.Proofs.Freshness
import Namesake.Proofs.Outcomes

/-! The files that are listed. What the walk meets is spelled from the root with names of the disk, every
listed path has a true path, and a list of what is not known to be right is the whole list without the files
that are. The paths are sorted, and between paths from the root the order has no ties, so leaving files out
before the sort is leaving them out after it. -/

namespace Namesake

theorem Path.dropFront?_eq_some {front whole rest : List String} :
    dropFront? front whole = some rest ↔ whole = front ++ rest := by
  induction front generalizing whole with
  | nil => simp [dropFront?, eq_comm]
  | cons a front ih =>
      cases whole with
      | nil => simp [dropFront?]
      | cons b whole =>
          rw [dropFront?]
          by_cases h : a = b
          · rw [if_pos h, ih, h, List.cons_append, List.cons.injEq, eq_self, true_and]
          · rw [if_neg h]
            refine iff_of_false nofun fun heq => h (List.cons.inj heq).1.symm

/-! ### The order of paths -/

namespace Path

theorem le_iff (a b : Path) : le a b = true ↔ a.parts ≤ b.parts := by
  rw [le, Bool.not_eq_true', decide_eq_false_iff_not, not_lt]

theorem eq_of_parts {a b : Path} (ha : a.isAbsolute = true) (hb : b.isAbsolute = true)
    (h : a.parts = b.parts) : a = b := by
  obtain ⟨x, ms⟩ := a
  obtain ⟨y, ns⟩ := b
  rw [parts, parts, if_pos ha, if_pos hb] at h
  obtain ⟨hanchor, hnames⟩ := List.cons.inj h
  obtain rfl : ms = ns := hnames
  cases x <;> cases y <;> first | rfl | (simp [Anchor.text] at hanchor)

theorem mem_sort {ps : List Path} {p : Path} : p ∈ sort ps ↔ p ∈ ps :=
  List.mem_mergeSort

theorem sort_pairwise (ps : List Path) : (sort ps).Pairwise fun a b => le a b = true := by
  refine List.pairwise_mergeSort (fun a b c hab hbc => ?_) (fun a b => ?_) ps
  · rw [le_iff] at *
    exact hab.trans hbc
  · rw [Bool.or_eq_true, le_iff, le_iff]
    exact le_total a.parts b.parts

/-- Leaving paths out before they are sorted is leaving them out afterwards. -/
theorem sort_filter {ps : List Path} (h : ∀ p ∈ ps, p.isAbsolute = true) (keep : Path → Bool) :
    sort (ps.filter keep) = (sort ps).filter keep := by
  have hperm : (sort (ps.filter keep)).Perm ((sort ps).filter keep) :=
    (List.mergeSort_perm _ _).trans ((List.mergeSort_perm ps le).symm.filter keep)
  refine hperm.eq_of_pairwise (fun a b ha hb hab hba => ?_) (sort_pairwise _) ((sort_pairwise ps).filter _)
  have ha' := h a (List.mem_of_mem_filter (mem_sort.mp ha))
  have hb' := h b (mem_sort.mp (List.mem_of_mem_filter hb))
  rw [le_iff] at hab hba
  exact eq_of_parts ha' hb' (le_antisymm hab hba)

end Path

/-! ### What the walk meets -/

namespace Disk

theorem Named.isEntry_of_mem_children {d : Disk} (h : d.Named) {p : Place} {n : String} (hn : n ∈ d.children p) :
    Path.IsEntry n := by
  rw [children, List.mem_mergeSort, List.mem_filterMap] at hn
  obtain ⟨e, he, heq⟩ := hn
  cases hdrop : Path.dropFront? p e.1 with
  | none =>
      rw [hdrop] at heq
      cases heq
  | some rest =>
      rw [hdrop] at heq
      obtain ⟨m, rfl⟩ : ∃ m, rest = [m] := by
        match rest, heq with
        | [m], _ => exact ⟨m, rfl⟩
      cases heq
      refine h e he n ?_
      rw [Path.dropFront?_eq_some.mp hdrop]
      exact List.mem_append_right _ List.mem_cons_self

/-- The walk goes along names of the disk. -/
theorem Named.forall_mem_walk {d : Disk} (h : d.Named) {P : String → Prop} (hentry : ∀ n, Path.IsEntry n → P n)
    {links : Bool} {depth : Nat} {top p : Place} (htop : ∀ n ∈ top, P n) (hp : p ∈ d.walk links depth top) :
    ∀ n ∈ p, P n := by
  induction depth generalizing top with
  | zero => cases hp
  | succ depth ih =>
      have hbelow (here : Place) (n : String) (hn : n ∈ d.children here) : ∀ m ∈ top ++ [n], P m := by
        intro m hm
        rcases List.mem_append.mp hm with hm | hm
        · exact htop m hm
        · rw [List.mem_singleton.mp hm]
          exact hentry n (h.isEntry_of_mem_children hn)
      rw [walk] at hp
      split at hp
      · rename_i here _
        rw [List.partition_eq_filter_filter] at hp
        rcases List.mem_append.mp hp with hp | hp
        · obtain ⟨n, hn, rfl⟩ := List.mem_map.mp hp
          exact hbelow here n (List.mem_of_mem_filter hn)
        · obtain ⟨n, hn, hp⟩ := List.mem_flatMap.mp hp
          exact ih (hbelow here n (List.mem_of_mem_filter (List.mem_of_mem_filter hn))) hp
      · cases hp

end Disk

namespace FileList

variable {l : FileList} {v : Vantage}

theorem isMet_of_mem_sources {d : Disk} (hd : d.Named) (hroot : ∀ n ∈ l.root.names, Path.IsName n) {p : Path}
    (hp : p ∈ l.sources d) : p.IsMet := by
  obtain ⟨hmem, hsource⟩ := List.mem_filter.mp hp
  obtain ⟨q, hq, rfl⟩ := List.mem_map.mp hmem
  exact ⟨rfl, hd.forall_mem_walk (fun n hn => hn.toIsName) hroot hq, hsource⟩

/-! ### What is chosen -/

/-- What is chosen when one more path is met: the path leads to a file that was seen and changes nothing, or it stands
for a new file and is chosen before the others if it passes the patterns and is in the scope. -/
theorem choose_cons {s : Scope} {seen ps found : List Path} {p : Path} (h : choose l v s seen (p :: ps) = .ok found) :
    ∃ q, v.resolve p = .ok q ∧ (q ∈ seen ∧ choose l v s seen ps = .ok found ∨
      q ∉ seen ∧ ∃ rest, choose l v s (q :: seen) ps = .ok rest ∧
        (found = rest ∧ (l.admits p = true → s.holds v p q = .ok false) ∨
          found = p :: rest ∧ l.admits p = true ∧ s.holds v p q = .ok true)) := by
  rw [choose] at h
  cases hq : v.resolve p with
  | error e =>
      rw [hq] at h
      cases h
  | ok q =>
      refine ⟨q, rfl, ?_⟩
      simp only [hq] at h
      split_ifs at h with hseen hadmits
      · exact .inl ⟨List.contains_iff_mem.mp hseen, h⟩
      · refine .inr ⟨fun hmem => hseen (List.contains_iff_mem.mpr hmem), ?_⟩
        cases hkeep : s.holds v p q with
        | error e =>
            rw [hkeep] at h
            cases h
        | ok keep =>
            rw [hkeep] at h
            obtain ⟨rest, hrest, rfl⟩ := map_eq_ok_iff.mp h
            cases keep with
            | false => exact ⟨rest, hrest, .inl ⟨rfl, fun _ => rfl⟩⟩
            | true => exact ⟨rest, hrest, .inr ⟨rfl, hadmits, rfl⟩⟩
      · exact .inr ⟨fun hmem => hseen (List.contains_iff_mem.mpr hmem), found, h,
          .inl ⟨rfl, fun hp => absurd hp hadmits⟩⟩

theorem of_mem_choose {s : Scope} {seen ps found : List Path} (h : choose l v s seen ps = .ok found) :
    ∀ p ∈ found, p ∈ ps ∧ ∃ q, v.resolve p = .ok q := by
  induction ps generalizing seen found with
  | nil =>
      cases h
      exact List.forall_mem_nil _
  | cons p ps ih =>
      have hmore {seen found : List Path} (h : choose l v s seen ps = .ok found) :
          ∀ x ∈ found, x ∈ p :: ps ∧ ∃ q, v.resolve x = .ok q :=
        fun x hx => ⟨List.mem_cons_of_mem _ (ih h x hx).1, (ih h x hx).2⟩
      obtain ⟨q, hq, ⟨-, hrest⟩ | ⟨-, rest, hrest, ⟨rfl, -⟩ | ⟨rfl, -, -⟩⟩⟩ := choose_cons h
      · exact hmore hrest
      · exact hmore hrest
      · exact List.forall_mem_cons.mpr ⟨⟨List.mem_cons_self, q, hq⟩, hmore hrest⟩

/-- No two of the paths that are chosen have one true path, and none has one that was seen before. -/
theorem pairwise_of_choose {s : Scope} {seen ps found : List Path} (h : choose l v s seen ps = .ok found) :
    (∀ p ∈ found, ∀ q ∈ seen, v.resolve p ≠ .ok q) ∧
      found.Pairwise fun a b => ∀ k, v.resolve a = .ok k → v.resolve b ≠ .ok k := by
  induction ps generalizing seen found with
  | nil =>
      cases h
      exact ⟨List.forall_mem_nil _, .nil⟩
  | cons p ps ih =>
      obtain ⟨q, hres, ⟨-, h⟩ | ⟨hnew, rest, h, hfound⟩⟩ := choose_cons h
      · exact ih h
      obtain ⟨hseen, hpair⟩ := ih h
      have hold : ∀ p' ∈ rest, ∀ q' ∈ seen, v.resolve p' ≠ .ok q' :=
        fun p' hp' q' hq' => hseen p' hp' q' (List.mem_cons_of_mem _ hq')
      have hother : ∀ p' ∈ rest, v.resolve p' ≠ .ok q := fun p' hp' => hseen p' hp' q List.mem_cons_self
      obtain ⟨rfl, -⟩ | ⟨rfl, -, -⟩ := hfound
      · exact ⟨hold, hpair⟩
      · refine ⟨List.forall_mem_cons.mpr ⟨fun q' hq' heq => ?_, hold⟩,
          List.pairwise_cons.mpr ⟨fun b hb k hk => ?_, hpair⟩⟩
        · obtain rfl : q = q' := Except.ok.inj (hres.symm.trans heq)
          exact hnew hq'
        · obtain rfl : q = k := Except.ok.inj (hres.symm.trans hk)
          exact hother b hb

/-- Where files are chosen every path that was met has a true path. -/
theorem resolve_of_choose {s : Scope} {seen ps found : List Path} (h : choose l v s seen ps = .ok found) :
    ∀ p ∈ ps, ∃ q, v.resolve p = .ok q := by
  induction ps generalizing seen found with
  | nil => exact List.forall_mem_nil _
  | cons p ps ih =>
      obtain ⟨q, hq, ⟨-, h⟩ | ⟨-, rest, h, -⟩⟩ := choose_cons h
      · exact List.forall_mem_cons.mpr ⟨⟨q, hq⟩, ih h⟩
      · exact List.forall_mem_cons.mpr ⟨⟨q, hq⟩, ih h⟩

/-- Is the file not known to be right? -/
def isStale (known : Freshness) (v : Vantage) (p : Path) : Bool :=
  match known.isFresh v p with
  | .ok fresh => !fresh
  | .error _ => true

theorem isStale_eq_false_iff (known : Freshness) {p q : Path} (h : v.resolve p = .ok q) :
    isStale known v p = false ↔
      ∃ data, v.read p = .ok data ∧ Json.Fields.get? q.render known.digests = some (Digest.sha256 data) := by
  obtain ⟨fresh, hfresh, hknown⟩ := known.exists_isFresh h
  rw [isStale, hfresh, ← hknown]
  dsimp only
  rw [Bool.not_eq_false']

/-- Choosing what is not known to be right is choosing everything and leaving out what is. -/
theorem choose_stale (l : FileList) (v : Vantage) (known : Freshness) (seen ps : List Path) :
    choose l v (.stale known) seen ps =
      (choose l v .everything seen ps).map fun found => found.filter (isStale known v) := by
  induction ps generalizing seen with
  | nil => rfl
  | cons p ps ih =>
      rw [choose, choose]
      cases hres : v.resolve p with
      | error e => rfl
      | ok q =>
          dsimp only
          by_cases hseen : seen.contains q = true
          · rw [if_pos hseen, if_pos hseen, ih]
          rw [if_neg hseen, if_neg hseen]
          by_cases hadmits : l.admits p = true
          · obtain ⟨fresh, hfresh, -⟩ := known.exists_isFresh hres
            have hstale : isStale known v p = !fresh := by rw [isStale, hfresh]
            rw [if_pos hadmits, if_pos hadmits]
            simp only [Scope.holds, hfresh, Except.map, ih]
            cases choose l v .everything (q :: seen) ps with
            | error e => rfl
            | ok rest =>
                simp only [if_true, List.filter_cons, hstale]
          · rw [if_neg hadmits, if_neg hadmits, ih]

theorem files_none (l : FileList) (v : Vantage) (known : Option Freshness) :
    (l.files v known none).outcome =
      (choose l v (known.elim .everything .stale) [] (l.sources v.disk)).map Path.sort := by
  rw [files]
  cases known with
  | none =>
      simp only [scopeOf, Except.bind, Option.elim_none]
      cases choose l v .everything [] (l.sources v.disk) <;> rfl
  | some known =>
      simp only [scopeOf, Except.bind, Option.elim_some]
      cases choose l v (.stale known) [] (l.sources v.disk) <;> rfl

/-- The files that are listed can be resolved and lie among the sources. -/
theorem of_mem_files {known : Option Freshness} {found : List Path}
    (h : (l.files v known none).outcome = .ok found) :
    ∀ p ∈ found, p ∈ l.sources v.disk ∧ ∃ q, v.resolve p = .ok q := by
  rw [files_none] at h
  obtain ⟨chosen, hchoose, rfl⟩ := map_eq_ok_iff.mp h
  exact fun p hp => of_mem_choose hchoose p (Path.mem_sort.mp hp)

/-- A part of the project that is a file is listed alone; otherwise the list is what is chosen among the sources. -/
theorem files_cases {known : Option Freshness} {sub : Option Path} {found : List Path}
    (h : (l.files v known sub).outcome = .ok found) :
    (∃ p, sub = some p ∧ v.isFile p = .ok true ∧ found = [p]) ∨
      ∃ scope chosen, choose l v scope [] (l.sources v.disk) = .ok chosen ∧ found = Path.sort chosen := by
  unfold files at h
  extract_lets single at h
  cases hsingle : single with
  | error e =>
      rw [hsingle] at h
      cases h
  | ok isSingle =>
      rw [hsingle] at h
      cases isSingle with
      | true =>
          cases h
          cases sub with
          | none =>
              have hwhole : single = .ok false := rfl
              rw [hwhole] at hsingle
              cases hsingle
          | some p => exact .inl ⟨p, rfl, hsingle, rfl⟩
      | false =>
          cases hscope : scopeOf v known sub with
          | error e =>
              rw [hscope] at h
              cases h
          | ok scope =>
              simp only [hscope, Except.bind] at h
              cases hchoose : choose l v scope [] (l.sources v.disk) with
              | error e =>
                  rw [hchoose] at h
                  cases h
              | ok chosen =>
                  rw [hchoose] at h
                  cases h
                  exact .inr ⟨scope, chosen, hchoose, rfl⟩

/-- Of a part of the project sources are listed that have a true path, or the part itself if it is a file. -/
theorem of_mem_files_in {known : Option Freshness} {sub : Option Path} {found : List Path}
    (h : (l.files v known sub).outcome = .ok found) :
    ∀ p ∈ found, sub = some p ∧ v.isFile p = .ok true ∨ p ∈ l.sources v.disk ∧ ∃ q, v.resolve p = .ok q := by
  rcases files_cases h with ⟨p, hsub, hfile, rfl⟩ | ⟨scope, chosen, hchoose, rfl⟩
  · exact List.forall_mem_singleton.mpr (.inl ⟨hsub, hfile⟩)
  · intro p hp
    exact .inr (of_mem_choose hchoose p (Path.mem_sort.mp hp))

/-- No two of the paths that are listed have one true path. -/
theorem pairwise_of_files {known : Option Freshness} {sub : Option Path} {found : List Path}
    (h : (l.files v known sub).outcome = .ok found) :
    found.Pairwise fun a b => ∀ k, v.resolve a = .ok k → v.resolve b ≠ .ok k := by
  rcases files_cases h with ⟨p, -, -, rfl⟩ | ⟨scope, chosen, hchoose, rfl⟩
  · exact List.pairwise_singleton _ p
  · apply (pairwise_of_choose hchoose).2.perm (List.mergeSort_perm chosen Path.le).symm
    intro a b hab k hb ha
    exact hab k ha hb

/-- The list of what is not known to be right is the whole list without what is. -/
theorem files_stale (hv : v.disk.Named) (hroot : ∀ n ∈ l.root.names, Path.IsName n) (known : Freshness) :
    (l.files v (some known) none).outcome =
      (l.files v none none).outcome.map fun found => found.filter (isStale known v) := by
  rw [files_none, files_none, Option.elim_some, Option.elim_none, choose_stale]
  cases hchoose : choose l v .everything [] (l.sources v.disk) with
  | error e => rfl
  | ok chosen =>
      have habs : ∀ p ∈ chosen, p.isAbsolute = true :=
        fun p hp => (isMet_of_mem_sources hv hroot (of_mem_choose hchoose p hp).1).absolute
      exact congrArg Except.ok (Path.sort_filter habs _)

end FileList

end Namesake
