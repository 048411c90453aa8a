import Namesake.Proofs.Enumeration
import Namesake.Proofs.Straight
import Namesake.Watch

/-! Watching and listing. A change is handed on if the path of the file passes a filter; the list holds what a
walk meets. Below a root without links the walk meets every file, because what the system can look up it can
reach name by name, through one directory for each name before the last. So what is listed are the files whose
change is handed on, but for the patterns to include, which only the list knows. -/

namespace Namesake

open Text

namespace Path

/-- A path that goes on is not shorter. -/
theorem size_render_le (front back : List String) :
    Utf8.size (ofPlace front).render ≤ Utf8.size (ofPlace (front ++ back)).render := by
  have hrender (names : List String) : (ofPlace names).render = "/" ++ "/".intercalate names := if_neg nofun
  have hjoined : Utf8.size ("/".intercalate front) ≤ Utf8.size ("/".intercalate (front ++ back)) := by
    by_cases hfront : front = []
    · rw [hfront, String.intercalate_nil]
      exact Nat.zero_le _
    by_cases hback : back = []
    · rw [hback, List.append_nil]
    rw [String.intercalate_append_of_ne_nil hfront hback, Utf8.size, Utf8.size, String.utf8ByteSize_append,
      String.utf8ByteSize_append]
    omega
  rw [hrender, hrender, Utf8.size, Utf8.size, String.utf8ByteSize_append, String.utf8ByteSize_append]
  exact Nat.add_le_add_left hjoined _

end Path

namespace Disk

/-! ### Looking up step by step -/

section Steps

variable {d : Disk} {links : Nat} {p : Place} {front : List String}

/-- A look-up goes on only from a directory. -/
theorem exists_directory_of_follow {back : List String} {r : Found} (hback : back ≠ [])
    (h : d.follow true links p (front ++ back) = .ok r) :
    ∃ m, d.follow true links p front = .ok (.present m .directory) := by
  have hmore (rest : List String) : rest ++ back ≠ [] := List.append_ne_nil_of_right_ne_nil rest hback
  fun_induction follow d true links p front with
  | case1 links p n hp =>
      obtain ⟨name, rest, rfl⟩ := List.exists_cons_of_ne_nil hback
      rw [List.nil_append, follow, hp] at h
      cases n with
      | directory => exact ⟨p, rfl⟩
      | _ => cases h
  | case2 links p hp =>
      obtain ⟨name, rest, rfl⟩ := List.exists_cons_of_ne_nil hback
      rw [List.nil_append, follow, hp] at h
      cases h
  | case3 links p name rest hp =>
      rw [List.cons_append, follow, hp] at h
      cases h
  | case4 links p name rest content hp =>
      rw [List.cons_append, follow, hp] at h
      cases h
  | case5 links p name rest target hp =>
      rw [List.cons_append, follow, hp] at h
      cases h
  | case6 links p rest hp ih =>
      rw [List.cons_append, follow, hp] at h
      exact ih h
  | case7 links p name rest hp hname hlong =>
      rw [List.cons_append, follow, hp] at h
      simp only [if_neg hname, if_pos hlong, reduceCtorEq] at h
  | case8 links p name hp hname hlong child hchild =>
      rw [List.cons_append, follow_child hp hname hlong, show d.find? (p ++ [name]) = none from hchild] at h
      simp only [if_neg (hmore []), reduceCtorEq] at h
  | case9 links p name rest hp hname hlong child hchild hrest =>
      rw [List.cons_append, follow_child hp hname hlong, show d.find? (p ++ [name]) = none from hchild] at h
      simp only [if_neg (hmore rest), reduceCtorEq] at h
  | case10 links p name rest hp hname hlong child target hchild hlast => exact absurd hlast.2 (by decide)
  | case11 p name rest hp hname hlong child target hchild hlast =>
      rw [List.cons_append, follow_child hp hname hlong, show d.find? (p ++ [name]) = _ from hchild] at h
      simp only [hmore rest, false_and, if_false, reduceCtorEq] at h
  | case12 p name rest hp hname hlong child target hchild hlast links t ih =>
      rw [List.cons_append, follow_child hp hname hlong, show d.find? (p ++ [name]) = _ from hchild] at h
      simp only [hmore rest, false_and, if_false, ← List.append_assoc] at h
      exact ih h
  | case13 links p name rest hp hname hlong child n hn hchild ih =>
      rw [List.cons_append, follow_child hp hname hlong, show d.find? (p ++ [name]) = _ from hchild] at h
      cases n with
      | link target => exact absurd rfl (hn target)
      | _ => exact ih h

/-- A look-up along two lists of names goes on where the first one leads. -/
theorem follow_append {m : Place} {n : Node} (h : d.follow true links p front = .ok (.present m n)) :
    ∃ links', ∀ last back, back ≠ [] → d.follow last links p (front ++ back) = d.follow last links' m back := by
  fun_induction follow d true links p front with
  | case1 links p n hp =>
      cases h
      exact ⟨links, fun last back hback => rfl⟩
  | case6 links p rest hp ih =>
      obtain ⟨links', hlinks'⟩ := ih h
      refine ⟨links', fun last back hback => ?_⟩
      rw [List.cons_append, follow, hp]
      exact hlinks' last back hback
  | case10 links p name rest hp hname hlong child target hchild hlast => exact absurd hlast.2 (by decide)
  | case12 p name rest hp hname hlong child target hchild hlast links t ih =>
      obtain ⟨links', hlinks'⟩ := ih h
      refine ⟨links', fun last back hback => ?_⟩
      have hmore : ¬ (rest ++ back = [] ∧ (!last) = true) :=
        fun hend => List.append_ne_nil_of_right_ne_nil rest hback hend.1
      rw [List.cons_append, follow_child hp hname hlong, show d.find? (p ++ [name]) = _ from hchild]
      simp only [if_neg hmore, ← List.append_assoc]
      exact hlinks' last back hback
  | case13 links p name rest hp hname hlong child n' hn hchild ih =>
      obtain ⟨links', hlinks'⟩ := ih h
      refine ⟨links', fun last back hback => ?_⟩
      rw [List.cons_append, follow_child hp hname hlong, show d.find? (p ++ [name]) = _ from hchild]
      cases n' with
      | link target => exact absurd rfl (hn target)
      | _ => exact hlinks' last back hback
  | _ => cases h

end Steps

/-! ### Below a directory without links -/

section Below

variable {d : Disk} {top here q : Place} {rest : List String} {x : Node}

theorem not_long_of_look {cwd : Place} {last : Bool} {p : Path} {r : Found} (h : d.look cwd last p = .ok r) :
    ¬ pathLimit ≤ Utf8.size p.render := by
  intro hlong
  rw [look, if_pos hlong] at h
  cases h

theorem look_ofPlace {last : Bool} {p : Place} (h : ¬ pathLimit ≤ Utf8.size (Path.ofPlace p).render) :
    d.look [] last (Path.ofPlace p) = d.follow last linkLimit [] p :=
  if_neg h

/-- What is looked up lies in directories that can be looked up. -/
theorem exists_directory_of_look {front back : List String} {r : Found} (hback : back ≠ [])
    (h : d.look [] true (Path.ofPlace (front ++ back)) = .ok r) :
    ∃ m, d.look [] true (Path.ofPlace front) = .ok (.present m .directory) := by
  have hshort := not_long_of_look h
  have hfront : ¬ pathLimit ≤ Utf8.size (Path.ofPlace front).render :=
    fun hlong => hshort (hlong.trans (Path.size_render_le front back))
  rw [look_ofPlace hshort] at h
  rw [look_ofPlace hfront]
  exact exists_directory_of_follow hback h

theorem Leads.eq_append_of_linkless {p : Place} {names : List String} {k : Nat} (h : Leads d p names q k)
    (hlinks : ∀ m, p <+: m → m ≠ p → ∀ t, d.find? m ≠ some (.link t)) (hup : ∀ n ∈ names, n ≠ "..") :
    q = p ++ names := by
  induction h with
  | done p => rw [List.append_nil]
  | up h ih => exact absurd rfl (hup _ List.mem_cons_self)
  | @enter p q name names k hname hlink h ih =>
      rw [List.append_cons]
      apply ih
      · exact fun m hm _ => not_link_of_child hlinks name m hm
      · exact fun n hn => hup n (List.mem_cons_of_mem _ hn)
  | @via p m q name target names j k hname hlink hfirst h ihfirst ih =>
      exact absurd hlink (not_link_of_child hlinks name _ (List.prefix_refl _) target)

theorem mem_children_of_find? {n : String} (h : d.find? (here ++ [n]) = some x) : n ∈ d.children here := by
  rw [children, List.mem_mergeSort, List.mem_filterMap]
  refine ⟨_, mem_nodes_of_find? (by simp) h, ?_⟩
  rw [Path.dropFront?_eq_some.mpr rfl]

variable (htop : d.look [] true (Path.ofPlace top) = .ok (.present here .directory)) (hlinks : d.Linkless top)

include htop hlinks

/-- What is looked up below the directory lies where the names say. -/
theorem find?_below (hup : ∀ n ∈ rest, n ≠ "..")
    (h : d.look [] true (Path.ofPlace (top ++ rest)) = .ok (.present q x)) :
    q = here ++ rest ∧ d.find? q = some x := by
  obtain ⟨-, k, hk⟩ := leads_of_look htop
  obtain ⟨hfind, j, hj⟩ := leads_of_look h
  have hj' : Leads d [] (top ++ rest) q j := hj
  obtain ⟨m, i, i', hfront, hback, -⟩ := hj'.split
  obtain rfl : m = here := (hfront.unique hk).1
  exact ⟨hback.eq_append_of_linkless (hlinks m htop) hup, hfind⟩

theorem linkless_child {n : String} (hup : n ≠ "..") : d.Linkless (top ++ [n]) := by
  intro here' hlook m hm hne
  obtain ⟨rfl, -⟩ := find?_below htop hlinks (List.forall_mem_singleton.mpr hup) hlook
  exact not_link_of_child (hlinks here htop) n m hm

/-- What has a name in the directory is found there also when links at the end are not followed. -/
theorem look_child {n : String} (hup : n ≠ "..")
    (h : d.look [] true (Path.ofPlace (top ++ [n])) = .ok (.present q x)) :
    d.look [] false (Path.ofPlace (top ++ [n])) = .ok (.present q x) := by
  obtain ⟨rfl, hfind⟩ := find?_below htop hlinks (List.forall_mem_singleton.mpr hup) h
  have hdir := (leads_of_look htop).1
  have hnot : ∀ t, d.find? (here ++ [n]) ≠ some (.link t) :=
    not_link_of_child (hlinks here htop) n _ (List.prefix_refl _)
  have hshort := not_long_of_look h
  rw [look_ofPlace (not_long_of_look htop)] at htop
  obtain ⟨links', hlinks'⟩ := follow_append htop
  rw [look_ofPlace hshort, hlinks' _ _ (List.cons_ne_nil n [])] at h ⊢
  have hlong : ¬ nameLimit < Utf8.size n := by
    intro hlong
    rw [follow, hdir] at h
    simp only [if_neg hup, if_pos hlong, reduceCtorEq] at h
  rw [follow_enter hdir hup hlong hfind fun t ht => hnot t (ht ▸ hfind), follow, hfind]

/-- On the way to what is below the directory there is one place in use for each name. -/
theorem length_le_of_look (hup : ∀ n ∈ rest, n ≠ "..")
    (h : d.look [] true (Path.ofPlace (top ++ rest)) = .ok (.present q x)) : rest.length ≤ d.nodes.length := by
  have hused (i : Nat) (hi : i < rest.length) : here ++ rest.take (i + 1) ∈ d.nodes.map Prod.fst := by
    have hfront : ∃ m y, d.look [] true (Path.ofPlace (top ++ rest.take (i + 1))) = .ok (.present m y) := by
      by_cases hend : rest.drop (i + 1) = []
      · rw [List.take_of_length_le (List.drop_eq_nil_iff.mp hend)]
        exact ⟨q, x, h⟩
      · rw [← List.take_append_drop (i + 1) rest, ← List.append_assoc] at h
        obtain ⟨m, hm⟩ := exists_directory_of_look hend h
        exact ⟨m, .directory, hm⟩
    obtain ⟨m, y, hlook⟩ := hfront
    obtain ⟨rfl, hfind⟩ := find?_below htop hlinks (fun n hn => hup n (List.mem_of_mem_take hn)) hlook
    have hne : here ++ rest.take (i + 1) ≠ [] := by
      intro heq
      have hlength := congrArg List.length (List.append_eq_nil_iff.mp heq).2
      rw [List.length_take, List.length_nil] at hlength
      omega
    exact List.mem_map.mpr ⟨_, mem_nodes_of_find? hne hfind, rfl⟩
  have hdistinct : ((List.range rest.length).map fun i => here ++ rest.take (i + 1)).Nodup := by
    refine List.nodup_range.map_on fun i hi j hj heq => ?_
    have hlength := congrArg List.length heq
    rw [List.mem_range] at hi hj
    simp only [List.length_append, List.length_take] at hlength
    omega
  calc rest.length = ((List.range rest.length).map fun i => here ++ rest.take (i + 1)).length := by
        rw [List.length_map, List.length_range]
    _ ≤ (d.nodes.map Prod.fst).length := by
        refine (List.subperm_of_subset hdistinct fun m hm => ?_).length_le
        obtain ⟨i, hi, rfl⟩ := List.mem_map.mp hm
        exact hused i (List.mem_range.mp hi)
    _ = d.nodes.length := List.length_map _

omit htop hlinks

/-- The walk meets every file below the directory that is not too deep for it. -/
theorem mem_walk_of_look {links : Bool} {depth : Nat} {data : Octets} (hlinks : d.Linkless top)
    (htop : d.look [] true (Path.ofPlace top) = .ok (.present here .directory)) (hne : rest ≠ [])
    (hup : ∀ n ∈ rest, n ≠ "..") (hdepth : rest.length ≤ depth)
    (h : d.look [] true (Path.ofPlace (top ++ rest)) = .ok (.present q (.file data))) :
    top ++ rest ∈ d.walk links depth top := by
  induction rest generalizing top here depth with
  | nil => exact absurd rfl hne
  | cons n rest ih =>
      obtain ⟨depth, rfl⟩ : ∃ k, depth = k + 1 := Nat.exists_eq_add_one_of_ne_zero (by rintro rfl; simp at hdepth)
      obtain ⟨hn, hup⟩ := List.forall_mem_cons.mp hup
      rw [List.length_cons] at hdepth
      rw [walk, htop]
      simp only [List.partition_eq_filter_filter, List.mem_append, List.mem_map, List.mem_flatMap, List.mem_filter]
      have hmem {m : Place} {y : Node} (hlook : d.look [] true (Path.ofPlace (top ++ [n])) = .ok (.present m y)) :
          n ∈ d.children here := by
        obtain ⟨rfl, hfind⟩ := find?_below htop hlinks (List.forall_mem_singleton.mpr hn) hlook
        exact mem_children_of_find? hfind
      by_cases hrest : rest = []
      · subst hrest
        have hfile : d.isDirectory [] (Path.ofPlace (top ++ [n])) = false := by rw [isDirectory, stat, h]
        refine .inl ⟨n, ⟨hmem h, ?_⟩, rfl⟩
        simp only [Function.comp_apply, hfile, Bool.not_false]
      · rw [List.append_cons] at h ⊢
        obtain ⟨m, hlook⟩ := exists_directory_of_look hrest h
        have hdir : d.isDirectory [] (Path.ofPlace (top ++ [n])) = true := by rw [isDirectory, stat, hlook]
        have hplain : d.isPlainDirectory (top ++ [n]) = true := by
          rw [isPlainDirectory, look_child htop hlinks hn hlook]
        refine .inr ⟨n, ⟨⟨hmem hlook, hdir⟩, ?_⟩, ?_⟩
        · rw [hplain, Bool.or_true]
        · exact ih (linkless_child htop hlinks hn) hlook hrest hup (by omega) h

/-- The walk meets every file below the directory. -/
theorem mem_filesBelow_of_look {links : Bool} {data : Octets} (hlinks : d.Linkless top) (hne : rest ≠ [])
    (hup : ∀ n ∈ rest, n ≠ "..")
    (h : d.look [] true (Path.ofPlace (top ++ rest)) = .ok (.present q (.file data))) :
    top ++ rest ∈ d.filesBelow links top := by
  obtain ⟨here, htop⟩ := exists_directory_of_look hne h
  have hlength := length_le_of_look htop hlinks hup h
  have hdepth : rest.length ≤ d.walkBound := by
    unfold walkBound linkLimit
    omega
  exact mem_walk_of_look hlinks htop hne hup hdepth h

end Below

end Disk

namespace FileList

variable {l : FileList} {v : Vantage}

/-- Below a root without links every source has a true path. -/
theorem resolve_of_mem_sources (hv : v.disk.Named) (hlinks : v.disk.Linkless l.root.names)
    (hroot : ∀ n ∈ l.root.names, Path.holdsNul n = false) : ∀ p ∈ l.sources v.disk, ∃ q, v.resolve p = .ok q := by
  intro p hp
  obtain ⟨x, hx, rfl⟩ := List.mem_map.mp (List.mem_of_mem_filter hp)
  obtain ⟨here, hlook⟩ := Disk.exists_look_of_mem_walk hx
  obtain ⟨hhere, k, htop⟩ := Disk.leads_of_look hlook
  obtain ⟨rest, j, rfl, hentry, hleads⟩ := hv.leads_of_mem_walk htop (hlinks here hlook) hx
  have hnul : (Path.ofPlace (l.root.names ++ rest)).names.any Path.holdsNul = false := by
    apply Path.any_holdsNul
    exact List.forall_mem_append.mpr ⟨hroot, fun n hn => (hentry n hn).noNul⟩
  have hup : ∀ n ∈ here ++ rest, n ≠ ".." :=
    List.forall_mem_append.mpr ⟨fun n hn => (hv.isEntry hhere n hn).notUp, fun n hn => (hentry n hn).notUp⟩
  exact ⟨_, Vantage.resolve_of_placeOf hnul (Disk.placeOf_eq hleads) (hleads.solid (Disk.solid_nil _)) hup⟩

/-- Below a root without links the list holds the sources that pass the patterns. -/
theorem exists_files_of_linkless (hv : v.disk.Named) (hlinks : v.disk.Linkless l.root.names)
    (hroot : ∀ n ∈ l.root.names, Path.holdsNul n = false) :
    ∃ found, (l.files v none none).outcome = .ok found ∧
      ∀ p, p ∈ found ↔ p ∈ l.sources v.disk ∧ l.admits p = true := by
  obtain ⟨chosen, hchosen, -, -⟩ := choose_everything (l := l) [] (resolve_of_mem_sources hv hlinks hroot)
  have hfiles : (l.files v none none).outcome = .ok (Path.sort chosen) := by
    rw [files_none, Option.elim_none, hchosen]
    rfl
  exact ⟨_, hfiles, mem_files_of_linkless hv hlinks hfiles⟩

end FileList

/-- A file below a directory, under a path that goes down from it. -/
def Vantage.HasFileBelow (v : Vantage) (dir p : Path) : Prop :=
  v.isFile p = .ok true ∧ ∃ rest, rest ≠ [] ∧ ".." ∉ rest ∧ p = Path.ofPlace (dir.names ++ rest)

namespace Vantage.HasFileBelow

variable {v : Vantage} {dir p : Path}

theorem noNul (h : v.HasFileBelow dir p) : ∀ n ∈ dir.names, Path.holdsNul n = false := by
  obtain ⟨hfile, rest, -, -, rfl⟩ := h
  obtain ⟨data, hread⟩ := exists_read_of_isFile hfile
  intro n hn
  have hnul := List.any_eq_false.mp (Bool.eq_false_of_not_eq_true (noNul_of_read hread)) n (List.mem_append_left _ hn)
  exact Bool.eq_false_of_not_eq_true hnul

/-- The walk from the directory meets it. -/
theorem mem_filesBelow {links : Bool} (h : v.HasFileBelow dir p) (hlinks : v.disk.Linkless dir.names) :
    p ∈ (v.disk.filesBelow links dir.names).map Path.ofPlace := by
  obtain ⟨hfile, rest, hne, hup, rfl⟩ := h
  obtain ⟨data, hread⟩ := exists_read_of_isFile hfile
  obtain ⟨q, hlook⟩ := Disk.look_of_read (read_eq_ok hread)
  have hlook' : v.disk.look [] true (Path.ofPlace (dir.names ++ rest)) = .ok (.present q (.file data)) := hlook
  have hdown : ∀ n ∈ rest, n ≠ ".." := fun n hn heq => hup (heq ▸ hn)
  exact List.mem_map_of_mem (Disk.mem_filesBelow_of_look hlinks hne hdown hlook')

end Vantage.HasFileBelow

/-! ### The filter and the list -/

/-- A path passes the patterns of the list exactly if it passes the filter of the watch and matches one of the
patterns to include, where there are any. -/
theorem Watch.wants_iff_admits (s : Settings) {p : Path} (hsource : Language.isSource p = true) (kind : ChangeKind)
    (hkind : kind ≠ .deleted) :
    (FileList.ofSettings s).admits p = true ↔ (Watch.ofSettings s).wants ⟨kind, p⟩ = true ∧
      (s.included = [] ∨ Glob.matchesAny (FileList.relative s.root p) s.included = true) := by
  have hkind : (kind != .deleted) = true := by simpa using hkind
  simp only [FileList.admits, Watch.wants, FileList.ofSettings, Watch.ofSettings, hsource, hkind, Bool.true_and,
    Bool.and_eq_true, Bool.or_eq_true]
  exact and_comm.trans (and_congr_right' (or_congr_left decide_eq_true_iff))

namespace Settings

/-- **Of the files below a root without links, those are listed whose change is handed on and that match one of
the patterns to include, where the environment names any.** The list and the watch have the same settings, whatever
these are. -/
theorem listed_iff_wanted {v : Vantage} {env : Environment} {root : Option String} {excluded : List String}
    {s : Settings} {p : Path} (hv : v.disk.Named) (hs : make v env root [] excluded = .ok s)
    (hlinks : v.disk.Linkless s.root.names) (hp : v.HasFileBelow s.root p) :
    ∃ found, ((FileList.ofSettings s).files v none none).outcome = .ok found ∧
      (p ∈ found ↔ (Watch.ofSettings s).wants ⟨.modified, p⟩ = true ∧
        (patterns env includedVariable [] [] = [] ∨
          Glob.matchesAny (FileList.relative s.root p) (patterns env includedVariable [] []) = true)) := by
  have hincluded : s.included = patterns env includedVariable [] [] := by
    unfold make at hs
    cases hroot : v.resolve (Path.ofString (rootText env root)) with
    | error e =>
        rw [hroot] at hs
        cases hs
    | ok k =>
        rw [hroot] at hs
        cases hs
        rfl
  obtain ⟨found, hfound, hmem⟩ :=
    FileList.exists_files_of_linkless (l := FileList.ofSettings s) hv hlinks hp.noNul
  refine ⟨found, hfound, ?_⟩
  rw [hmem, ← hincluded]
  by_cases hsource : Language.isSource p = true
  · have hmet : p ∈ (FileList.ofSettings s).sources v.disk :=
      List.mem_filter.mpr ⟨hp.mem_filesBelow hlinks, hsource⟩
    rw [and_iff_right hmet]
    exact Watch.wants_iff_admits s hsource .modified nofun
  · have hunmet : p ∉ (FileList.ofSettings s).sources v.disk := fun hmet => hsource (List.mem_filter.mp hmet).2
    have hunwanted : (Watch.ofSettings s).wants ⟨.modified, p⟩ = false := by
      rw [Watch.wants, Bool.eq_false_of_not_eq_true hsource, Bool.and_false, Bool.false_and]
    rw [hunwanted]
    exact iff_of_false (fun h => hunmet h.1) fun h => Bool.false_ne_true h.1

/-! ### A pattern that only the list knows -/

/-- A disk with two sources in its root. -/
def twoSources : Vantage :=
  ⟨.flat [("A.php", []), ("B.php", [])], []⟩

/-- An environment in which the first of them is to be included. -/
def firstOnly : Environment :=
  [(includedVariable, "A.php")]

/-- The settings of a run there. -/
def ofFirstOnly : Settings :=
  ⟨Path.ofPlace [], ["A.php"], defaultExcluded, false, defaultCacheFile⟩

theorem make_firstOnly : make twoSources firstOnly (some "/") [] [] = .ok ofFirstOnly := by
  have hroot : twoSources.resolve (Path.ofString (rootText firstOnly (some "/"))) = .ok (Path.ofPlace []) := by
    have hpath : Path.ofString (rootText firstOnly (some "/")) = ⟨.root, []⟩ := by decide
    rw [hpath]
    exact Vantage.resolve_root _ .root
  rw [make, hroot]
  decide

theorem named_twoSources : twoSources.disk.Named :=
  Disk.named_flat (by decide)

theorem linkless_twoSources (top : Place) : twoSources.disk.Linkless top :=
  fun _ _ m _ _ t => Disk.not_link_flat _ m t

theorem hasFileBelow_twoSources : twoSources.HasFileBelow ofFirstOnly.root (Path.ofPlace ["B.php"]) := by
  have hfile : twoSources.isFile (Path.ofPlace ["B.php"]) = .ok true := Vantage.isFile_file (by decide) rfl
  exact ⟨hfile, ["B.php"], List.cons_ne_nil _ _, by decide, rfl⟩

theorem listed_iff_wanted_twoSources :
    ∃ found, ((FileList.ofSettings ofFirstOnly).files twoSources none none).outcome = .ok found ∧
      (Path.ofPlace ["B.php"] ∈ found ↔
        (Watch.ofSettings ofFirstOnly).wants ⟨.modified, Path.ofPlace ["B.php"]⟩ = true ∧
        (patterns firstOnly includedVariable [] [] = [] ∨
          Glob.matchesAny (FileList.relative ofFirstOnly.root (Path.ofPlace ["B.php"]))
            (patterns firstOnly includedVariable [] []) = true)) :=
  listed_iff_wanted named_twoSources make_firstOnly (linkless_twoSources _) hasFileBelow_twoSources

/-- A change of the second source is handed on, although the second source is not listed with the same root,
patterns to exclude and environment. -/
theorem wanted_of_not_listed :
    make twoSources firstOnly (some "/") [] [] = .ok ofFirstOnly ∧
      twoSources.disk.Linkless ofFirstOnly.root.names ∧
      twoSources.HasFileBelow ofFirstOnly.root (Path.ofPlace ["B.php"]) ∧
      (Watch.ofSettings ofFirstOnly).wants ⟨.modified, Path.ofPlace ["B.php"]⟩ = true ∧
      ∃ found, ((FileList.ofSettings ofFirstOnly).files twoSources none none).outcome = .ok found ∧
        Path.ofPlace ["B.php"] ∉ found := by
  have hwanted : (Watch.ofSettings ofFirstOnly).wants ⟨.modified, Path.ofPlace ["B.php"]⟩ = true := by
    decide +kernel
  have hfails : (FileList.ofSettings ofFirstOnly).admits (Path.ofPlace ["B.php"]) = false := by decide +kernel
  have hlinks := linkless_twoSources (FileList.ofSettings ofFirstOnly).root.names
  obtain ⟨found, hfound, hmem⟩ :=
    FileList.exists_files_of_linkless named_twoSources hlinks hasFileBelow_twoSources.noNul
  refine ⟨make_firstOnly, linkless_twoSources _, hasFileBelow_twoSources, hwanted, found, hfound, fun hlisted => ?_⟩
  have hadmits := ((hmem _).mp hlisted).2
  rw [hfails] at hadmits
  exact Bool.false_ne_true hadmits

end Settings

end Namesake
