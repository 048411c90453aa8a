import Mathlib
import Namesake.Proofs.FlatDisk

/-! Which of several paths to one file is listed. The walk may meet a file under more than one name, because
links to files are met like files. The first path it meets stands for the file: it is listed if it passes the
patterns, and if it does not, no other path to the file is. So the list is complete exactly when no path that is
met first fails the patterns while a later one to the same file passes them. -/

namespace Namesake

namespace FileList

variable {l : FileList} {v : Vantage}

/-- The first of the paths that leads to the same file as `p`. -/
def firstLike (v : Vantage) (ps : List Path) (p : Path) : Option Path :=
  ps.find? fun p' => v.resolve p' = v.resolve p

/-- The path under which the walk first meets the file that `p` leads to. -/
def firstMet (l : FileList) (v : Vantage) (p : Path) : Option Path :=
  firstLike v (l.sources v.disk) p

/-- Every file that is met under a path that passes the patterns is listed under some path. -/
def Complete (l : FileList) (v : Vantage) (found : List Path) : Prop :=
  ∀ p ∈ l.sources v.disk, l.admits p = true → ∃ p' ∈ found, v.resolve p' = v.resolve p

theorem resolve_of_firstLike {ps : List Path} {p p' : Path} (h : firstLike v ps p = some p') :
    v.resolve p' = v.resolve p := by
  have hsame := List.find?_some h
  rwa [decide_eq_true_eq] at hsame

theorem exists_firstLike {ps : List Path} {p : Path} (h : p ∈ ps) : ∃ p', firstLike v ps p = some p' := by
  rw [← Option.isSome_iff_exists, firstLike, List.find?_isSome]
  exact ⟨p, h, decide_eq_true rfl⟩

/-- What is met first is met first as itself. -/
theorem firstLike_idem {ps : List Path} {p p' : Path} (h : firstLike v ps p = some p') :
    firstLike v ps p' = some p' := by
  rw [firstLike, resolve_of_firstLike h]
  exact h

theorem firstLike_cons_of_eq {a p : Path} (ps : List Path) (h : v.resolve a = v.resolve p) :
    firstLike v (a :: ps) p = some a :=
  List.find?_cons_of_pos (decide_eq_true h)

theorem firstLike_cons_of_ne {a p : Path} (ps : List Path) (h : v.resolve a ≠ v.resolve p) :
    firstLike v (a :: ps) p = firstLike v ps p :=
  List.find?_cons_of_neg fun heq => h (of_decide_eq_true heq)

/-- Is the path chosen among `ps` when the true paths `seen` are taken? -/
def Chosen (l : FileList) (v : Vantage) (seen ps : List Path) (p : Path) : Prop :=
  l.admits p = true ∧ (∀ q ∈ seen, v.resolve p ≠ .ok q) ∧ firstLike v ps p = some p

/-- A path to a file that was seen before changes nothing. -/
theorem chosen_cons_of_seen {a q : Path} {seen ps : List Path} (ha : v.resolve a = .ok q) (hq : q ∈ seen)
    (p : Path) : Chosen l v seen (a :: ps) p ↔ Chosen l v seen ps p := by
  by_cases hp : v.resolve p = .ok q
  · have htaken : ¬ ∀ q' ∈ seen, v.resolve p ≠ .ok q' := fun hall => hall q hq hp
    exact iff_of_false (fun h => htaken h.2.1) fun h => htaken h.2.1
  · have hne : v.resolve a ≠ v.resolve p := fun heq => hp (heq.symm.trans ha)
    rw [Chosen, Chosen, firstLike_cons_of_ne ps hne]

/-- A path to a new file is chosen if it passes, and no later path to this file is. -/
theorem chosen_cons_of_new {a q : Path} {seen ps : List Path} (ha : v.resolve a = .ok q) (hq : q ∉ seen)
    (p : Path) : Chosen l v seen (a :: ps) p ↔ p = a ∧ l.admits a = true ∨ Chosen l v (q :: seen) ps p := by
  by_cases hp : v.resolve p = .ok q
  · have htaken : ¬ Chosen l v (q :: seen) ps p := fun h => h.2.1 q List.mem_cons_self hp
    rw [or_iff_left htaken, Chosen, firstLike_cons_of_eq ps (ha.trans hp.symm), Option.some.injEq]
    constructor
    · rintro ⟨hadmits, -, rfl⟩
      exact ⟨rfl, hadmits⟩
    · rintro ⟨rfl, hadmits⟩
      refine ⟨hadmits, fun q' hq' heq => hq ?_, rfl⟩
      rw [ha, Except.ok.injEq] at heq
      rwa [heq]
  · have hne : v.resolve a ≠ v.resolve p := fun heq => hp (heq.symm.trans ha)
    have hother : ¬ (p = a ∧ l.admits a = true) := fun h => hne (congrArg v.resolve h.1.symm)
    rw [or_iff_right hother, Chosen, Chosen, firstLike_cons_of_ne ps hne, List.forall_mem_cons,
      and_iff_right hp]

/-- Where every path has a true path, one path is chosen for each file. -/
theorem choose_everything (seen : List Path) {ps : List Path} (h : ∀ p ∈ ps, ∃ q, v.resolve p = .ok q) :
    ∃ found, choose l v .everything seen ps = .ok found ∧
      found.Pairwise (fun a b => v.resolve a ≠ v.resolve b) ∧ ∀ p, p ∈ found ↔ Chosen l v seen ps p := by
  induction ps generalizing seen with
  | nil =>
      refine ⟨[], rfl, .nil, fun p => iff_of_false List.not_mem_nil ?_⟩
      rintro ⟨-, -, hfirst⟩
      cases hfirst
  | cons a ps ih =>
      obtain ⟨⟨q, hq⟩, hps⟩ := List.forall_mem_cons.mp h
      rw [choose, hq]
      dsimp only
      by_cases hseen : seen.contains q = true
      · rw [if_pos hseen]
        obtain ⟨found, hfound, hpair, hmem⟩ := ih seen hps
        refine ⟨found, hfound, hpair, fun p => ?_⟩
        rw [hmem, chosen_cons_of_seen hq (List.contains_iff_mem.mp hseen)]
      rw [if_neg hseen]
      rw [List.contains_iff_mem] at hseen
      obtain ⟨found, hfound, hpair, hmem⟩ := ih (q :: seen) hps
      by_cases hadmits : l.admits a = true
      · rw [if_pos hadmits]
        refine ⟨a :: found, ?_, List.pairwise_cons.mpr ⟨fun p hp heq => ?_, hpair⟩, fun p => ?_⟩
        · show (choose l v .everything (q :: seen) ps).map _ = _
          rw [hfound]
          rfl
        · exact ((hmem p).mp hp).2.1 q List.mem_cons_self (heq.symm.trans hq)
        · rw [List.mem_cons, hmem, chosen_cons_of_new hq hseen, and_iff_left hadmits]
      · rw [if_neg hadmits]
        refine ⟨found, hfound, hpair, fun p => ?_⟩
        have hnot : ¬ (p = a ∧ l.admits a = true) := fun h => hadmits h.2
        rw [hmem, chosen_cons_of_new hq hseen, or_iff_right hnot]

/-! ### A file and a link to it -/

/-- A file and a link to it, whose name comes first. -/
def linked : Vantage :=
  ⟨⟨[(["Z.php"], .file []), (["A.php"], .link "Z.php")]⟩, []⟩

/-- The files of this disk without the link. -/
def unlinked : FileList :=
  ⟨Path.ofPlace [], [], ["A.php"], false⟩

theorem sources_linked : unlinked.sources linked.disk = [Path.ofPlace ["A.php"], Path.ofPlace ["Z.php"]] := by
  have hchildren : linked.disk.children [] = ["A.php", "Z.php"] := by cbv
  have hfiles : ∀ n ∈ linked.disk.children [], linked.disk.isDirectory [] (Path.ofPlace [n]) = false := by
    rw [hchildren]
    simp only [List.forall_mem_cons]
    exact ⟨by cbv, Disk.isDirectory_file [] (by decide) rfl, List.forall_mem_nil _⟩
  rw [sources_root rfl hfiles, hchildren]
  decide

theorem resolve_linked {p : Path} (hp : p ∈ unlinked.sources linked.disk) :
    linked.resolve p = .ok (Path.ofPlace ["Z.php"]) := by
  rw [sources_linked] at hp
  have hstat : linked.disk.stat [] (Path.ofPlace ["Z.php"]) = .ok (.file []) := by
    rw [Disk.stat, Disk.look_file [] true (by decide) rfl]
  have hplace : linked.disk.placeOf linked.cwd p = ["Z.php"] := by fin_cases hp <;> decide
  have hnul : p.names.any Path.holdsNul = false := by fin_cases hp <;> decide
  refine Vantage.resolve_eq_ok_iff.mpr ⟨hnul, ?_, by rw [hplace]⟩
  rw [hplace, show linked.cwd = [] from rfl, hstat]
  intro heq
  cases heq

/-! ### The list -/

/-- Where no source is a link that leads back to itself, the list holds, in order, one path for each file that
is first met under a path that passes the patterns, namely this path, and nothing else. It is complete exactly
when no path that fails the patterns is met before a path to the same file that passes them. -/
theorem files_first_met (l : FileList) (v : Vantage) (h : ∀ p ∈ l.sources v.disk, ∃ q, v.resolve p = .ok q) :
    ∃ found, (l.files v none none).outcome = .ok found ∧
      found.Pairwise (fun a b => Path.le a b = true) ∧
      found.Pairwise (fun a b => v.resolve a ≠ v.resolve b) ∧
      (∀ p, p ∈ found ↔ l.firstMet v p = some p ∧ l.admits p = true) ∧
      (l.Complete v found ↔ ∀ p ∈ l.sources v.disk, l.admits p = true →
        ∀ first, l.firstMet v p = some first → l.admits first = true) := by
  obtain ⟨found, hfound, hpair, hmem⟩ := choose_everything (l := l) [] h
  have hlisted (p : Path) : p ∈ Path.sort found ↔ l.firstMet v p = some p ∧ l.admits p = true := by
    rw [Path.mem_sort, hmem, Chosen, and_iff_right (List.forall_mem_nil _), and_comm]
    rfl
  refine ⟨Path.sort found, ?_, Path.sort_pairwise found, ?_, hlisted, ?_⟩
  · rw [files_none, Option.elim_none, hfound]
    rfl
  · exact hpair.perm (List.mergeSort_perm found Path.le).symm fun hne heq => hne heq.symm
  · constructor
    · intro hcomplete p hp hadmits first hfirst
      obtain ⟨p', hp', hsame⟩ := hcomplete p hp hadmits
      obtain ⟨hself, hpasses⟩ := (hlisted p').mp hp'
      rw [firstMet, firstLike, hsame] at hself
      obtain rfl : p' = first := Option.some.inj (hself.symm.trans hfirst)
      exact hpasses
    · intro hall p hp hadmits
      obtain ⟨first, hfirst⟩ := exists_firstLike (v := v) hp
      refine ⟨first, (hlisted first).mpr ⟨firstLike_idem hfirst, ?_⟩, resolve_of_firstLike hfirst⟩
      exact hall p hp hadmits first hfirst

theorem files_first_met_linked :
    (∀ p ∈ unlinked.sources linked.disk, ∃ q, linked.resolve p = .ok q) ∧
    ∃ found, (unlinked.files linked none none).outcome = .ok found ∧
      found.Pairwise (fun a b => Path.le a b = true) ∧
      found.Pairwise (fun a b => linked.resolve a ≠ linked.resolve b) ∧
      (∀ p, p ∈ found ↔ unlinked.firstMet linked p = some p ∧ unlinked.admits p = true) ∧
      (unlinked.Complete linked found ↔ ∀ p ∈ unlinked.sources linked.disk, unlinked.admits p = true →
        ∀ first, unlinked.firstMet linked p = some first → unlinked.admits first = true) :=
  have h : ∀ p ∈ unlinked.sources linked.disk, ∃ q, linked.resolve p = .ok q := fun _ hp => ⟨_, resolve_linked hp⟩
  ⟨h, files_first_met unlinked linked h⟩

/-- A link that the patterns leave out keeps the file it leads to from being listed, although the file's own
path is met and passes them. -/
theorem files_hides_target :
    Path.ofPlace ["Z.php"] ∈ unlinked.sources linked.disk ∧ unlinked.admits (Path.ofPlace ["Z.php"]) = true ∧
      (unlinked.files linked none none).outcome = .ok [] ∧ ¬ unlinked.Complete linked [] := by
  have hlast : Path.ofPlace ["Z.php"] ∈ unlinked.sources linked.disk := by
    rw [sources_linked]
    exact List.mem_cons_of_mem _ List.mem_cons_self
  have hadmits : unlinked.admits (Path.ofPlace ["Z.php"]) = true := by decide +kernel
  have hfails : unlinked.admits (Path.ofPlace ["A.php"]) = false := by decide +kernel
  refine ⟨hlast, hadmits, ?_, fun hcomplete => ?_⟩
  · have hfirst : Path.ofPlace ["A.php"] ∈ unlinked.sources linked.disk := by
      rw [sources_linked]
      exact List.mem_cons_self
    rw [files_none, Option.elim_none, sources_linked]
    simp [choose, resolve_linked hfirst, resolve_linked hlast, hfails, Except.map, Path.sort]
  · obtain ⟨p, hp, -⟩ := hcomplete _ hlast hadmits
    exact List.not_mem_nil hp

end FileList

/-! ### Projects without links -/

namespace Disk

/-- Below the directory that a place leads to nothing is a link. -/
def Linkless (d : Disk) (top : Place) : Prop :=
  ∀ here, d.look [] true (Path.ofPlace top) = .ok (.present here .directory) →
    ∀ m, here <+: m → m ≠ here → ∀ t, d.find? m ≠ some (.link t)

theorem exists_look_of_mem_walk {d : Disk} {links : Bool} {depth : Nat} {top p : Place}
    (hp : p ∈ d.walk links depth top) : ∃ here, d.look [] true (Path.ofPlace top) = .ok (.present here .directory) := by
  cases depth with
  | zero => cases hp
  | succ depth =>
      rw [walk] at hp
      split at hp
      · rename_i here hlook
        exact ⟨here, hlook⟩
      · cases hp

/-- Where nothing below a place is a link, neither a child of it is one nor anything below the child. -/
theorem not_link_of_child {d : Disk} {p : Place} (h : ∀ m, p <+: m → m ≠ p → ∀ t, d.find? m ≠ some (.link t))
    (n : String) : ∀ m, p ++ [n] <+: m → ∀ t, d.find? m ≠ some (.link t) := by
  intro m hm
  apply h m ((List.prefix_append p [n]).trans hm)
  rintro rfl
  have hlength := hm.length_le
  simp at hlength

/-- Where nothing is a link, each name of a path that the walk meets leads one directory deeper. -/
theorem Named.leads_of_mem_walk {d : Disk} (hd : d.Named) {links : Bool} {depth : Nat} {top here p : Place} {k : Nat}
    (htop : Leads d [] top here k) (hlinks : ∀ m, here <+: m → m ≠ here → ∀ t, d.find? m ≠ some (.link t))
    (hp : p ∈ d.walk links depth top) :
    ∃ rest j, p = top ++ rest ∧ (∀ n ∈ rest, Path.IsEntry n) ∧ Leads d [] p (here ++ rest) j := by
  induction depth generalizing top here k with
  | zero => cases hp
  | succ depth ih =>
      rw [walk] at hp
      split at hp
      · rename_i here' hlook
        obtain ⟨-, k', hk'⟩ := leads_of_look hlook
        obtain rfl : here' = here := (hk'.unique htop).1
        have hchild (n : String) (hn : n ∈ d.children here') : Leads d [] (top ++ [n]) (here' ++ [n]) (k + 0) := by
          apply htop.append
          apply Leads.enter (hd.isEntry_of_mem_children hn).notUp
          · exact not_link_of_child hlinks n _ (List.prefix_refl _)
          · exact .done _
        rw [List.partition_eq_filter_filter] at hp
        rcases List.mem_append.mp hp with hp | hp
        · obtain ⟨n, hn, rfl⟩ := List.mem_map.mp hp
          have hn := List.mem_of_mem_filter hn
          exact ⟨[n], _, rfl, List.forall_mem_singleton.mpr (hd.isEntry_of_mem_children hn), hchild n hn⟩
        · obtain ⟨n, hn, hp⟩ := List.mem_flatMap.mp hp
          have hn := List.mem_of_mem_filter (List.mem_of_mem_filter hn)
          have hbelow : ∀ m, here' ++ [n] <+: m → m ≠ here' ++ [n] → ∀ t, d.find? m ≠ some (.link t) :=
            fun m hm _ => not_link_of_child hlinks n m hm
          obtain ⟨rest, j, rfl, hentry, hrest⟩ := ih (hchild n hn) hbelow hp
          refine ⟨n :: rest, j, ?_, List.forall_mem_cons.mpr ⟨hd.isEntry_of_mem_children hn, hentry⟩, ?_⟩
          · simp
          · simpa using hrest
      · cases hp

end Disk

namespace FileList

variable {l : FileList} {v : Vantage}

/-- Below a root without links no file is met twice. -/
theorem eq_of_resolve (hv : v.disk.Named) (hlinks : v.disk.Linkless l.root.names) {p p' q : Path}
    (hp : p ∈ l.sources v.disk) (hp' : p' ∈ l.sources v.disk) (hq : v.resolve p = .ok q)
    (hq' : v.resolve p' = .ok q) : p = p' := by
  obtain ⟨x, hx, rfl⟩ := List.mem_map.mp (List.mem_of_mem_filter hp)
  obtain ⟨x', hx', rfl⟩ := List.mem_map.mp (List.mem_of_mem_filter hp')
  obtain ⟨here, hlook⟩ := Disk.exists_look_of_mem_walk hx
  obtain ⟨-, k, htop⟩ := Disk.leads_of_look hlook
  have hbelow := hlinks here hlook
  have hplace (rest : List String) (j : Nat) (h : v.disk.Leads [] (l.root.names ++ rest) (here ++ rest) j) :
      v.disk.placeOf v.cwd (Path.ofPlace (l.root.names ++ rest)) = here ++ rest :=
    Disk.placeOf_eq h
  obtain ⟨rest, j, rfl, -, hrest⟩ := hv.leads_of_mem_walk htop hbelow hx
  obtain ⟨rest', j', rfl, -, hrest'⟩ := hv.leads_of_mem_walk htop hbelow hx'
  obtain ⟨-, -, heq⟩ := Vantage.resolve_eq_ok_iff.mp hq
  obtain ⟨-, -, heq'⟩ := Vantage.resolve_eq_ok_iff.mp hq'
  have hplaces : here ++ rest = here ++ rest' := by
    rw [← hplace rest j hrest, ← hplace rest' j' hrest']
    exact (Path.mk.inj (heq.trans heq'.symm)).2
  rw [List.append_cancel_left hplaces]

/-- Below a root without links every source that passes the patterns is listed. -/
theorem mem_files_of_linkless (hv : v.disk.Named) (hlinks : v.disk.Linkless l.root.names) {found : List Path}
    (h : (l.files v none none).outcome = .ok found) (p : Path) :
    p ∈ found ↔ p ∈ l.sources v.disk ∧ l.admits p = true := by
  rw [files_none, Option.elim_none] at h
  obtain ⟨chosen, hchoose, rfl⟩ := map_eq_ok_iff.mp h
  have hresolve := resolve_of_choose hchoose
  obtain ⟨chosen', hchosen, -, hmem⟩ := choose_everything (l := l) [] hresolve
  obtain rfl : chosen = chosen' := Except.ok.inj (hchoose.symm.trans hchosen)
  rw [Path.mem_sort, hmem, Chosen, and_iff_right (List.forall_mem_nil _), and_comm]
  refine and_congr_left fun _ => ⟨List.mem_of_find?_eq_some, fun hp => ?_⟩
  obtain ⟨p', hp'⟩ := exists_firstLike (v := v) hp
  obtain ⟨q, hq⟩ := hresolve p hp
  have hsame : v.resolve p' = .ok q := (resolve_of_firstLike hp').trans hq
  obtain rfl : p = p' := eq_of_resolve hv hlinks hp (List.mem_of_find?_eq_some hp') hq hsame
  exact hp'

end FileList

end Namesake
