import Namesake.Proofs.FixRuns
import Namesake.Proofs.Incremental
import Namesake.Proofs.Reviews
import Namesake.Proofs.Watching

/-! Links that run in a circle, and the list of sources. A ring is a set of links each of which leads to one of the set:
the system goes through them until it gives up, and the search for the true place comes back to one of them. So a path
that ends on a ring has no true path, and if the walk meets one, there is no list at all. Where the links of all sources
come to an end, wherever that is, there is a list, and a check reports on everything that is listed. -/

namespace Namesake

open Text Syntax

/-- What does not go up stays as it is. -/
theorem Path.names_normalize_ofPlace {m : Place} (hm : ∀ n ∈ m, n ≠ "..") : (Path.normalize ⟨.root, m⟩).names = m := by
  have hfold (seen : List String) : (m.foldl (cancel true) seen).reverse = seen.reverse ++ m := by
    induction m generalizing seen with
    | nil => exact (List.append_nil _).symm
    | cons name m ih =>
        obtain ⟨hname, hm⟩ := List.forall_mem_cons.mp hm
        rw [List.foldl_cons, ih hm, reverse_cancel_of_ne hname, List.append_assoc]
        rfl
  exact hfold []

namespace Disk

variable {d : Disk} {p q a : Place} {names : List String} {target : String} {links : Nat}

theorem Solid.base (hp : d.Solid p) (target : String) : d.Solid (base p target) := by
  unfold Disk.base
  split_ifs
  · exact solid_nil d
  · exact hp

/-- A walk from a place without double dots ends at such a place. -/
theorem Leads.notUp {k : Nat} (h : Leads d p names q k) (hp : ∀ n ∈ p, n ≠ "..") : ∀ n ∈ q, n ≠ ".." := by
  induction h with
  | done p => exact hp
  | up h ih => exact ih fun n hn => hp n (List.mem_of_mem_dropLast hn)
  | enter hname hlink h ih =>
      exact ih (List.forall_mem_append.mpr ⟨hp, List.forall_mem_singleton.mpr hname⟩)
  | @via p m q name target rest j k hname hlink hfirst h ihfirst ih =>
      refine ih (ihfirst ?_)
      rw [base]
      split_ifs
      · exact List.forall_mem_nil _
      · exact hp

/-- Where a look-up ends at a link, a walk leads to the directory of the link. -/
theorem leads_of_follow_link (hp : d.Solid p) (h : d.follow false links p names = .ok (.present a (.link target))) :
    ∃ front name m k, names = front ++ [name] ∧ name ≠ ".." ∧ Leads d p front m k ∧ a = m ++ [name] ∧
      d.find? a = some (.link target) := by
  fun_induction follow d false links p names with
  | case1 links p n hfind =>
      cases h
      exact absurd hfind (hp _ (List.prefix_refl _) target)
  | case6 links p rest hdir ih =>
      obtain ⟨front, name, m, k, rfl, hname, hleads, ha, hfind⟩ := ih (hp.of_prefix (List.dropLast_prefix _)) h
      exact ⟨".." :: front, name, m, k, rfl, hname, .up hleads, ha, hfind⟩
  | case10 links p name rest hdir hname hlong child next hchild hend =>
      obtain ⟨rfl, rfl⟩ := Found.present.inj (Except.ok.inj h) |>.imp_right Node.link.inj
      exact ⟨[], name, p, 0, by rw [hend.1]; rfl, hname, .done p, rfl, hchild⟩
  | case12 p name rest hdir hname hlong child next hchild hend links t ih =>
      obtain ⟨front, last, m, k, hnames, hlast, hleads, ha, hfind⟩ := ih (hp.base next) h
      obtain ⟨back, rfl⟩ : ∃ back, rest = back ++ [last] := by
        rcases List.eq_nil_or_concat' rest with rfl | ⟨back, last', rfl⟩
        · exact absurd ⟨rfl, rfl⟩ hend
        · rw [← List.append_assoc] at hnames
          obtain rfl := List.singleton_inj.mp (List.append_inj' hnames rfl).2
          exact ⟨back, rfl⟩
      rw [← List.append_assoc] at hnames
      obtain rfl := (List.append_inj' hnames rfl).1
      obtain ⟨l, i, j, hfirst, hback, -⟩ := hleads.split
      exact ⟨name :: back, last, m, _, rfl, hlast, .via hname hchild hfirst hback, ha, hfind⟩
  | case13 links p name rest hdir hname hlong child n hn hchild ih =>
      have hlink : ∀ t, d.find? (p ++ [name]) ≠ some (.link t) := fun t ht => hn t (Option.some.inj (hchild.symm.trans ht))
      obtain ⟨front, last, m, k, rfl, hlast, hleads, ha, hfind⟩ := ih (hp.append hlink) h
      exact ⟨name :: front, last, m, k, rfl, hlast, .enter hname hlink hleads, ha, hfind⟩
  | _ => cases h

/-- A look-up that ends at a link goes on with its target, if links may be gone through. -/
theorem follow_true_of_link (hp : d.Solid p) (h : d.follow false links p names = .ok (.present a (.link target)))
    (more : Nat) : d.follow true more p names = .error .tooManyLinks ∨
      ∃ less < more, d.follow true more p names =
        d.follow true less (base a.dropLast target) (Path.ofString target).names := by
  fun_induction follow d false links p names generalizing more with
  | case1 links p n hfind =>
      cases h
      exact absurd hfind (hp _ (List.prefix_refl _) target)
  | case6 links p rest hdir ih =>
      rw [follow, hdir]
      exact ih (hp.of_prefix (List.dropLast_prefix _)) h more
  | case10 links p name rest hdir hname hlong child next hchild hend =>
      obtain ⟨rfl, rfl⟩ := Found.present.inj (Except.ok.inj h) |>.imp_right Node.link.inj
      obtain rfl := hend.1
      rw [follow_child hdir hname hlong, show d.find? (p ++ [name]) = _ from hchild, List.dropLast_concat]
      cases more with
      | zero => exact .inl rfl
      | succ more =>
          refine .inr ⟨more, Nat.lt_succ_self more, ?_⟩
          rw [← List.append_nil (Path.ofString next).names]
          rfl
  | case12 p name rest hdir hname hlong child next hchild hend links t ih =>
      have hlast : ¬ (rest = [] ∧ (!true) = true) := fun hlast => by cases hlast.2
      rw [follow_child hdir hname hlong, show d.find? (p ++ [name]) = _ from hchild]
      simp only [if_neg hlast]
      cases more with
      | zero => exact .inl rfl
      | succ more =>
          rcases ih (hp.base next) h more with herror | ⟨less, hless, heq⟩
          · exact .inl herror
          · exact .inr ⟨less, Nat.lt_succ_of_lt hless, heq⟩
  | case13 links p name rest hdir hname hlong child n hn hchild ih =>
      have hlink : ∀ t, d.find? (p ++ [name]) ≠ some (.link t) := fun t ht => hn t (Option.some.inj (hchild.symm.trans ht))
      rw [follow_enter hdir hname hlong hchild fun t ht => hn t ht]
      exact ih (hp.append hlink) h more
  | _ => cases h

/-! ### Rings -/

/-- Links each of which leads to one of them. -/
def Ring (d : Disk) (ring : Set Place) : Prop :=
  ∀ a ∈ ring, ∃ target, d.look [] false (Path.ofPlace a) = .ok (.present a (.link target)) ∧
    ∃ links b next, d.follow false links (base a.dropLast target) (Path.ofString target).names =
      .ok (.present b (.link next)) ∧ b ∈ ring

namespace Ring

variable {ring : Set Place}

/-- A link of a ring has a name in a directory that no link is on the way to, and its target leads on from there. -/
theorem exists_next (h : d.Ring ring) (ha : a ∈ ring) : ∃ m name target, a = m ++ [name] ∧ name ≠ ".." ∧ d.Solid m ∧
    d.find? a = some (.link target) ∧ ∃ links b next,
      d.follow false links (base m target) (Path.ofString target).names = .ok (.present b (.link next)) ∧ b ∈ ring := by
  obtain ⟨target, hlook, hnext⟩ := h a ha
  rw [look_ofPlace (not_long_of_look hlook)] at hlook
  obtain ⟨front, name, m, k, -, hname, hleads, rfl, hfind⟩ := leads_of_follow_link (solid_nil d) hlook
  rw [List.dropLast_concat] at hnext
  exact ⟨m, name, target, rfl, hname, hleads.solid (solid_nil d), hfind, hnext⟩

/-- On a ring the system goes through links until it gives up. -/
theorem follow (h : d.Ring ring) (hp : d.Solid p) (ha : a ∈ ring)
    (hlook : d.follow false links p names = .ok (.present a (.link target))) (more : Nat) :
    d.follow true more p names = .error .tooManyLinks := by
  -- Every link of the ring uses up one of the links that may be gone through, and leads to another one.
  induction more using Nat.strongRecOn generalizing p names links a target with
  | _ more ih =>
      rcases follow_true_of_link hp hlook more with herror | ⟨less, hless, heq⟩
      · exact herror
      · obtain ⟨-, -, -, -, -, -, -, -, hfind⟩ := leads_of_follow_link hp hlook
        obtain ⟨m, name, target', rfl, -, hm, hfind', links', b, next, hnext, hb⟩ := h.exists_next ha
        obtain rfl := Node.link.inj (Option.some.inj (hfind'.symm.trans hfind))
        rw [heq, List.dropLast_concat]
        exact ih less hless (hm.base target') hb hnext

theorem stat (h : d.Ring ring) (ha : a ∈ ring) (cwd : Place) : d.stat cwd (Path.ofPlace a) = .error .tooManyLinks := by
  obtain ⟨target, hlook, -⟩ := h a ha
  have hlong := not_long_of_look hlook
  rw [look_ofPlace hlong] at hlook
  have hloop : d.look cwd true (Path.ofPlace a) = .error .tooManyLinks := by
    rw [look, if_neg hlong]
    exact h.follow (solid_nil d) ha hlook linkLimit
  rw [Disk.stat, hloop]

/-- No walk leads through a ring: each link that it goes through takes it on to another one with less to go. -/
theorem not_leads (h : d.Ring ring) {m : Place} {name : String} (ha : m ++ [name] ∈ ring) {k : Nat} :
    ¬ Leads d m [name] q k := by
  intro hleads
  induction k using Nat.strongRecOn generalizing m name q with
  | _ k ih =>
      obtain ⟨m', name', target, heq, hname, hm, hfind, links, b, next, hnext, hb⟩ := h.exists_next ha
      obtain ⟨rfl, hsame⟩ := List.append_inj' heq rfl
      obtain rfl := List.singleton_inj.mp hsame
      cases hleads with
      | up => exact hname rfl
      | enter _ hlink => exact hlink _ hfind
      | via _ hlink hfirst hdone =>
          obtain rfl := Node.link.inj (Option.some.inj (hfind.symm.trans hlink))
          obtain ⟨front, last, m', i, hnames, -, hfront, rfl, -⟩ := leads_of_follow_link (hm.base target) hnext
          rw [hnames] at hfirst
          obtain ⟨l, i', j', hfront', hlast, rfl⟩ := hfirst.split
          obtain ⟨rfl, -⟩ := hfront'.unique hfront
          exact ih j' (by omega) hb hlast

/-- The search for the place of a link on a ring comes back to one of its links. -/
theorem expand (h : d.Ring ring) (hp : d.Solid p) (ha : a ∈ ring)
    (hlook : d.follow false links p names = .ok (.present a (.link target))) {depth : Nat} {active : List Place}
    (hactive : ∀ c ∈ active, c ∈ ring) (hdepth : names.length + linkWeight active d.nodes < depth) :
    ∃ c ∈ ring, d.expand depth active p names = .error c := by
  induction depth using Nat.strongRecOn generalizing p names links a target active with
  | _ depth ih =>
      obtain ⟨front, name, m, k, rfl, hname, hleads, rfl, hfind⟩ := leads_of_follow_link hp hlook
      rw [List.length_append, List.length_singleton] at hdepth
      obtain ⟨spare, rfl⟩ := Nat.exists_eq_add_of_le (show front.length + 1 ≤ depth by omega)
      have hfront : d.expand (front.length + 1 + spare) active p (front ++ [name]) =
          d.expand (1 + spare) active m [name] := by
        rw [Nat.add_assoc]
        refine expand_append hleads (fun l name' r j hmem hj => ?_) (by omega) _
        exact absurd hj (h.not_leads (hactive _ hmem))
      rw [hfront, Nat.add_comm 1, Disk.expand, if_neg hname]
      simp only [hfind]
      by_cases hmem : m ++ [name] ∈ active
      · -- The search has come back to a link that it is in the middle of.
        rw [if_pos hmem, List.append_nil]
        exact ⟨_, ha, rfl⟩
      · obtain ⟨m', name', target', heq, -, hm, hfind', links', b, next, hnext, hb⟩ := h.exists_next ha
        obtain ⟨rfl, -⟩ := List.append_inj' heq rfl
        obtain rfl := Node.link.inj (Option.some.inj (hfind'.symm.trans hfind))
        have hweight := linkWeight_of_mem hmem (mem_nodes_of_find? (by simp) hfind)
        obtain ⟨c, hc, hexpand⟩ := ih spare (by omega) (hm.base target') hb hnext
          (List.forall_mem_cons.mpr ⟨ha, hactive⟩) (by omega)
        rw [base] at hexpand
        rw [if_neg hmem, hexpand]
        exact ⟨c, hc, congrArg Except.error (List.append_nil c)⟩

/-- The search ends at a link of the ring. -/
theorem placeOf_mem (h : d.Ring ring) (hd : d.Named) {cwd : Place} {x : Path} (hcwd : x.isAbsolute = true ∨ d.Solid cwd)
    (ha : a ∈ ring) (hlook : d.look cwd false x = .ok (.present a (.link target))) : d.placeOf cwd x ∈ ring := by
  rw [look, if_neg (not_long_of_look hlook)] at hlook
  obtain ⟨c, hc, hexpand⟩ : ∃ c ∈ ring, d.expand (d.depthBound x.names.length) []
      (if x.isAbsolute then [] else cwd) x.names = .error c := by
    refine h.expand (solid_start hcwd) ha hlook (List.forall_mem_nil _) ?_
    rw [depthBound_eq]
    omega
  obtain ⟨m, name, next, -, -, -, hfind, -⟩ := h.exists_next hc
  rw [placeOf, hexpand]
  dsimp only
  rw [Path.names_normalize_ofPlace fun n hn => (hd.isEntry hfind n hn).notUp]
  exact hc

end Ring

end Disk

namespace Vantage

variable {v : Vantage} {p : Path}

/-- Whatever has no true path and holds no NUL lies on a circle of links. -/
theorem linkLoop_of_resolve {e : Failure} (hnul : p.names.any Path.holdsNul = false) (h : v.resolve p = .error e) :
    ∃ k, e = .linkLoop k := by
  rw [resolve, if_neg (by rw [hnul]; nofun)] at h
  cases hres : v.disk.resolve v.cwd p with
  | ok q =>
      rw [hres] at h
      cases h
  | error q =>
      rw [hres] at h
      cases h
      exact ⟨_, rfl⟩

/-- A path that ends on a ring has no true path. -/
theorem not_resolve_of_ring {ring : Set Place} (hv : v.Proper) (hring : v.disk.Ring ring) {a : Place} {target : String}
    (ha : a ∈ ring) (hlook : v.disk.look v.cwd false p = .ok (.present a (.link target))) (q : Path) :
    v.resolve p ≠ .ok q := by
  intro hres
  have hmem := hring.placeOf_mem hv.named (.inr hv.solid) ha hlook
  exact (resolve_eq_ok_iff.mp hres).2.1 (hring.stat hmem v.cwd)

/-- A path from the root whose links come to an end has a true path, whatever is there. -/
theorem exists_resolve_of_leads (hp : p.isAbsolute = true) (hnul : p.names.any Path.holdsNul = false) {q : Place} {k : Nat}
    (h : v.disk.Leads [] p.names q k) : ∃ q, v.resolve p = .ok q := by
  have hplace : v.disk.placeOf v.cwd p = q := by
    apply Disk.placeOf_eq (k := k)
    rwa [if_pos hp]
  exact ⟨_, resolve_of_placeOf hnul hplace (h.solid (Disk.solid_nil _)) (h.notUp (List.forall_mem_nil _))⟩

end Vantage

namespace FileList

variable {l : FileList} {v : Vantage} {p : Path}

/-- Sources have names that nothing keeps from being looked up. -/
theorem isEntry_of_mem_sources (hd : v.disk.Named) (hroot : ∀ n ∈ l.root.names, Path.IsEntry n)
    (hp : p ∈ l.sources v.disk) : p.isAbsolute = true ∧ ∀ n ∈ p.names, Path.IsEntry n := by
  obtain ⟨q, hq, rfl⟩ := List.mem_map.mp (List.mem_of_mem_filter hp)
  exact ⟨rfl, hd.forall_mem_walk (fun _ hn => hn) hroot hq⟩

/-- What ends a choice keeps one of the paths from having a true path. -/
theorem exists_of_choose_everything {seen ps : List Path} {e : Failure} (h : choose l v .everything seen ps = .error e) :
    ∃ p ∈ ps, v.resolve p = .error e := by
  induction ps generalizing seen with
  | nil => cases h
  | cons p ps ih =>
      have hmore {seen : List Path} (h : choose l v .everything seen ps = .error e) :
          ∃ x ∈ p :: ps, v.resolve x = .error e := by
        obtain ⟨x, hx, hres⟩ := ih h
        exact ⟨x, List.mem_cons_of_mem _ hx, hres⟩
      rw [choose] at h
      cases hres : v.resolve p with
      | error e' =>
          rw [hres] at h
          cases h
          exact ⟨p, List.mem_cons_self, hres⟩
      | ok q =>
          simp only [hres, Scope.holds, if_true] at h
          split_ifs at h with hseen hadmits
          · exact hmore h
          · cases hrest : choose l v .everything (q :: seen) ps with
            | error e' =>
                rw [hrest] at h
                cases h
                exact hmore hrest
            | ok rest =>
                rw [hrest] at h
                cases h
          · exact hmore h

/-- There is a list exactly if every source has a true path; otherwise one without a true path ends the listing. -/
theorem files_cases_of_sources (l : FileList) (v : Vantage) (known : Option Freshness) :
    (∀ p ∈ l.sources v.disk, ∃ q, v.resolve p = .ok q) ∧ (∃ found, (l.files v known none).outcome = .ok found) ∨
      ∃ p ∈ l.sources v.disk, ∃ e, v.resolve p = .error e ∧ (l.files v known none).outcome = .error e := by
  have hstale : choose l v (known.elim .everything .stale) [] (l.sources v.disk) =
      (choose l v .everything [] (l.sources v.disk)).map fun found =>
        found.filter fun p => known.all fun known => isStale known v p := by
    cases known with
    | none =>
        rw [Option.elim_none]
        cases choose l v .everything [] (l.sources v.disk) with
        | error e => rfl
        | ok found => exact congrArg Except.ok (List.filter_eq_self.mpr fun _ _ => rfl).symm
    | some known =>
        rw [Option.elim_some, choose_stale]
        rfl
  rw [files_none, hstale]
  cases hchoose : choose l v .everything [] (l.sources v.disk) with
  | ok found => exact .inl ⟨resolve_of_choose hchoose, _, rfl⟩
  | error e =>
      obtain ⟨p, hp, hres⟩ := exists_of_choose_everything hchoose
      exact .inr ⟨p, hp, e, hres, rfl⟩

variable {parse : String → Tree}

/-- **What is no ring of links keeps nothing from being listed and checked.** There is a list if every source that does
not lead to a file leads somewhere, through whatever links. A source that is a link on a ring ends the listing. And of
everything that is listed a check has one report, in order, with an error exactly if the source cannot be read as a
text; the others are checked. -/
theorem lists_unless_ring (hparse : ∀ text, (parse text).WellFormed text.toList) (hv : v.Proper)
    (hroot : ∀ n ∈ l.root.names, Path.IsEntry n) (resolver : Resolver) (known : Option Freshness) :
    ((∀ p ∈ l.sources v.disk, v.isFile p ≠ .ok true → ∃ q k, v.disk.Leads [] p.names q k) →
      ∃ found, (l.files v known none).outcome = .ok found) ∧
    (∀ ring, v.disk.Ring ring → ∀ p ∈ l.sources v.disk, ∀ a ∈ ring, ∀ target,
      v.disk.look v.cwd false p = .ok (.present a (.link target)) →
      ∃ k, (l.files v known none).outcome = .error (.linkLoop k)) ∧
    ∀ found, (l.files v known none).outcome = .ok found → ∃ reports,
      (Batch.checkFiles (.ofResolver resolver parse) v found).outcome = .ok reports ∧
      reports.map Report.path = found ∧
      ∀ report ∈ reports,
        (report.error = none ↔ ∃ data text, v.read report.path = .ok data ∧ Utf8.decode? data = .ok text) ∧
        (report.error = none →
          ∃ notes, Batch.checkFile (.ofResolver resolver parse) v report.path = .ok (report, notes)) := by
  have hnul (p : Path) (hp : p ∈ l.sources v.disk) : p.names.any Path.holdsNul = false :=
    Path.any_holdsNul fun n hn => ((isEntry_of_mem_sources hv.named hroot hp).2 n hn).noNul
  refine ⟨fun hleads => ?_, fun ring hring p hp a ha target hlook => ?_, fun found hfound => ?_⟩
  · rcases files_cases_of_sources l v known with ⟨-, hfound⟩ | ⟨p, hp, e, herror, -⟩
    · exact hfound
    · obtain ⟨q, hres⟩ : ∃ q, v.resolve p = .ok q := by
        by_cases hfile : v.isFile p = .ok true
        · obtain ⟨data, hread⟩ := Vantage.exists_read_of_isFile hfile
          exact ⟨_, (hv.exists_holds hread).1.resolve⟩
        · obtain ⟨q, k, hleads⟩ := hleads p hp hfile
          exact Vantage.exists_resolve_of_leads (isEntry_of_mem_sources hv.named hroot hp).1 (hnul p hp) hleads
      rw [hres] at herror
      cases herror
  · rcases files_cases_of_sources l v known with ⟨hall, -⟩ | ⟨p', hp', e, herror, hfiles⟩
    · obtain ⟨q, hres⟩ := hall p hp
      exact absurd hres (Vantage.not_resolve_of_ring hv hring ha hlook q)
    · obtain ⟨k, rfl⟩ := Vantage.linkLoop_of_resolve (hnul p' hp') herror
      exact ⟨k, hfiles⟩
  · have hmet : ∀ p ∈ found, p.IsMet := fun p hp =>
      isMet_of_mem_sources hv.named (fun n hn => (hroot n hn).toIsName) (of_mem_files hfound p hp).1
    have hcheck := Batch.checkFiles_eq hv resolver parse fun p hp => (hmet p hp).names
    refine ⟨_, hcheck, Batch.map_path_review .., fun report hreport => ?_⟩
    obtain ⟨-, hone⟩ := Batch.map_path_of_checkFiles hcheck
    obtain ⟨p, hp, rfl⟩ := List.mem_map.mp hreport
    obtain ⟨notes, hone⟩ := hone _ hreport
    constructor
    · rw [Batch.path_review]
      exact Batch.error_review_iff hparse resolver (hmet p hp).source
    · intro hnone
      exact ⟨notes, (Batch.checkOne_cases hone).2.resolve_right fun herror => herror hnone⟩

/-! ### Bad entries -/

/-- Everything in the root of a disk. -/
def everything : FileList :=
  ⟨Path.ofPlace [], [], [], false⟩

/-- An empty source, a link into a directory that is not there, and a source that is no text. -/
def spoiled : Vantage :=
  ⟨⟨[(["A.php"], .file []), (["B.php"], .link "gone/X.php"), (["C.php"], .file [0xff])]⟩, []⟩

theorem sources_spoiled :
    everything.sources spoiled.disk = [Path.ofPlace ["A.php"], Path.ofPlace ["B.php"], Path.ofPlace ["C.php"]] := by
  have hchildren : spoiled.disk.children [] = ["A.php", "B.php", "C.php"] := by cbv
  have hfiles : ∀ n ∈ spoiled.disk.children [], spoiled.disk.isDirectory [] (Path.ofPlace [n]) = false := by
    rw [hchildren]
    simp only [List.forall_mem_cons]
    exact ⟨Disk.isDirectory_file [] (by decide) rfl, by cbv, Disk.isDirectory_file [] (by decide) rfl,
      List.forall_mem_nil _⟩
  rw [sources_root rfl hfiles, hchildren]
  decide

/-- The link leads to a place where nothing is. -/
theorem leads_spoiled : spoiled.disk.Leads [] ["B.php"] ["gone", "X.php"] 1 := by
  have hnames : (Path.ofString "gone/X.php").names = ["gone", "X.php"] := by decide
  have hbase : Disk.base [] "gone/X.php" = [] := by decide
  have hlink : spoiled.disk.find? ([] ++ ["B.php"]) = some (.link "gone/X.php") := rfl
  have htarget : spoiled.disk.Leads [] ["gone", "X.php"] ["gone", "X.php"] 0 :=
    .enter (by decide) (fun t ht => by cases ht) (.enter (by decide) (fun t ht => by cases ht) (.done _))
  refine .via (by decide) hlink ?_ (.done _)
  rwa [hnames, hbase]

theorem lists_unless_ring_spoiled :
    (∀ text, (Batch.soundParse text).WellFormed text.toList) ∧ spoiled.Proper ∧
      (∀ n ∈ everything.root.names, Path.IsEntry n) ∧
      ∃ found, (everything.files spoiled none none).outcome = .ok found ∧ ∃ reports,
        (Batch.checkFiles (.ofResolver (.table []) Batch.soundParse) spoiled found).outcome = .ok reports ∧
        reports.map Report.path = found := by
  have hproper : spoiled.Proper := by
    refine ⟨?_, Disk.solid_nil _⟩
    show ∀ e ∈ spoiled.disk.nodes, ∀ n ∈ e.1, Path.IsEntry n
    decide
  have hroot : ∀ n ∈ everything.root.names, Path.IsEntry n := List.forall_mem_nil _
  obtain ⟨hlist, -, hcheck⟩ := lists_unless_ring Batch.wellFormed_soundParse hproper hroot (.table []) none
  obtain ⟨found, hfound⟩ : ∃ found, (everything.files spoiled none none).outcome = .ok found := by
    apply hlist
    rw [sources_spoiled]
    intro p hp hfile
    fin_cases hp
    · exact absurd (Vantage.isFile_file (by decide) rfl) hfile
    · exact ⟨_, _, leads_spoiled⟩
    · exact absurd (Vantage.isFile_file (by decide) rfl) hfile
  obtain ⟨reports, hreports, hpaths, -⟩ := hcheck found hfound
  exact ⟨Batch.wellFormed_soundParse, hproper, hroot, found, hfound, reports, hreports, hpaths⟩

/-- An empty source and a link to itself. -/
def selfLinked : Vantage :=
  ⟨⟨[(["A.php"], .file []), (["L.php"], .link "L.php")]⟩, []⟩

/-- The link keeps the source from being listed. -/
theorem not_listed_selfLinked :
    Path.ofPlace ["A.php"] ∈ everything.sources selfLinked.disk ∧
      selfLinked.isFile (Path.ofPlace ["A.php"]) = .ok true ∧
      (everything.files selfLinked none none).outcome = .error (.linkLoop "/L.php") := by
  have hchildren : selfLinked.disk.children [] = ["A.php", "L.php"] := by cbv
  have hfiles : ∀ n ∈ selfLinked.disk.children [], selfLinked.disk.isDirectory [] (Path.ofPlace [n]) = false := by
    rw [hchildren]
    simp only [List.forall_mem_cons]
    exact ⟨Disk.isDirectory_file [] (by decide) rfl, by cbv, List.forall_mem_nil _⟩
  have hsources : everything.sources selfLinked.disk = [Path.ofPlace ["A.php"], Path.ofPlace ["L.php"]] := by
    rw [sources_root rfl hfiles, hchildren]
    decide
  have hgood : selfLinked.resolve (Path.ofPlace ["A.php"]) = .ok (Path.ofPlace ["A.php"]) :=
    Vantage.resolve_name (by decide) fun t ht => by cases ht
  have hbad : selfLinked.resolve (Path.ofPlace ["L.php"]) = .error (.linkLoop "/L.php") := by
    have hplace : selfLinked.disk.placeOf selfLinked.cwd (Path.ofPlace ["L.php"]) = ["L.php"] := by decide
    have hstat : selfLinked.disk.stat selfLinked.cwd (Path.ofPlace ["L.php"]) = .error .tooManyLinks := by cbv
    rw [Vantage.resolve, Disk.resolve, hplace, hstat]
    decide
  refine ⟨?_, Vantage.isFile_file (by decide) rfl, ?_⟩
  · rw [hsources]
    exact List.mem_cons_self
  · rw [files_none, Option.elim_none, hsources]
    simp [choose, hgood, hbad, Scope.holds, Except.map]

end FileList

end Namesake
