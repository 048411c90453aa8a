import Namesake.Proofs.Overwrite

/-! Paths without links on the way. Where no part of a path is a link, its true place can be told from its
spelling: double dots cancel against the name before them, and what is left is the true path. So two spellings
of one normalized path have one true path, on whatever disk. -/

namespace Namesake

namespace Path

/-- The place that a text means as a path seen from the place `base`, told from its spelling alone. -/
def spelled (base : Place) (s : String) : Place :=
  ((ofPlace base).join (ofString s)).normalize.names

theorem isAbsolute_join {p : Path} (hp : p.isAbsolute = true) (q : Path) : (p.join q).isAbsolute = true := by
  unfold join
  split_ifs with hq
  · exact hq
  · exact hp

theorem join_of_isAbsolute {q : Path} (hq : q.isAbsolute = true) (p : Path) : p.join q = q :=
  if_pos hq

theorem names_normalize_of_isAbsolute {p : Path} (hp : p.isAbsolute = true) :
    p.normalize.names = (p.names.foldl (cancel true) []).reverse := by
  rw [normalize, hp]

theorem ne_up_of_mem_cancel {seen : List String} {name n : String} (hseen : ∀ n ∈ seen, n ≠ "..")
    (h : n ∈ cancel true seen name) : n ≠ ".." := by
  by_cases hup : name = ".."
  · cases seen with
    | nil => simp [cancel, hup] at h
    | cons last rest =>
        obtain ⟨hlast, hrest⟩ := List.forall_mem_cons.mp hseen
        simp only [cancel, if_pos hup, if_neg hlast] at h
        exact hrest n h
  · simp only [cancel, if_neg hup] at h
    rcases List.mem_cons.mp h with rfl | h
    · exact hup
    · exact hseen n h

/-- From the root a double dot goes to the directory above. -/
theorem reverse_cancel_up {seen : List String} (hseen : ∀ n ∈ seen, n ≠ "..") :
    (cancel true seen "..").reverse = seen.reverse.dropLast := by
  cases seen with
  | nil => rfl
  | cons last rest =>
      have hlast : last ≠ ".." := hseen last List.mem_cons_self
      simp [cancel, hlast]

theorem reverse_cancel_of_ne {name : String} (hname : name ≠ "..") (seen : List String) :
    (cancel true seen name).reverse = seen.reverse ++ [name] := by
  simp only [cancel, if_neg hname, List.reverse_cons]

theorem any_holdsNul {names : List String} (h : ∀ n ∈ names, holdsNul n = false) : names.any holdsNul = false :=
  List.any_eq_false.mpr fun n hn => Bool.eq_false_iff.mp (h n hn)

theorem holdsNul_of_mem_ofString {s n : String} (hs : holdsNul s = false) (hn : n ∈ (ofString s).names) :
    holdsNul n = false := by
  obtain ⟨part, hpart, rfl⟩ := List.mem_map.mp hn
  have hsplit := (List.mem_filter.mp hpart).1
  rw [holdsNul, ← Bool.not_eq_true, List.contains_iff_mem] at hs ⊢
  rw [String.toList_ofList]
  exact fun hnul => hs (Text.mem_of_mem_splitOn hsplit hnul)

end Path

namespace Disk

variable {d : Disk} {base : Place} {s : String}

/-- A text that the system takes as a path seen from `base`, with no link on the way. -/
structure Straight (d : Disk) (base : Place) (s : String) : Prop where
  noNul : Path.holdsNul s = false
  /-- However far one goes along the path, one does not stand at a link. -/
  unlinked : ∀ front, front <+: ((Path.ofPlace base).join (Path.ofString s)).names →
    ∀ t, d.find? (Path.normalize ⟨.root, front⟩).names ≠ some (.link t)

theorem straight_empty (base : Place) (hs : Path.holdsNul s = false) : Disk.empty.Straight base s := by
  refine ⟨hs, fun front _ t h => ?_⟩
  unfold find? at h
  split_ifs at h
  · cases h
  · cases h

/-- Where one never stands at a link, the names lead where they say. -/
theorem leads_of_unlinked {seen names : List String} (hseen : ∀ n ∈ seen, n ≠ "..")
    (h : ∀ front, front <+: names → ∀ t, d.find? (front.foldl (Path.cancel true) seen).reverse ≠ some (.link t)) :
    Leads d seen.reverse names (names.foldl (Path.cancel true) seen).reverse 0 := by
  induction names generalizing seen with
  | nil => exact .done _
  | cons name rest ih =>
      have hnext : ∀ n ∈ Path.cancel true seen name, n ≠ ".." := fun n hn => Path.ne_up_of_mem_cancel hseen hn
      have hrest : ∀ front, front <+: rest → ∀ t,
          d.find? (front.foldl (Path.cancel true) (Path.cancel true seen name)).reverse ≠ some (.link t) :=
        fun front hfront => h (name :: front) (List.cons_prefix_cons.mpr ⟨rfl, hfront⟩)
      have hleads := ih hnext hrest
      rw [List.foldl_cons]
      by_cases hup : name = ".."
      · subst hup
        rw [Path.reverse_cancel_up hseen] at hleads
        exact .up hleads
      · have hchild := h [name] (List.cons_prefix_cons.mpr ⟨rfl, List.nil_prefix⟩)
        rw [List.foldl_cons, List.foldl_nil, Path.reverse_cancel_of_ne hup] at hchild
        rw [Path.reverse_cancel_of_ne hup] at hleads
        exact .enter hup hchild hleads

/-- A walk through no links, along names that do not lead up, ends where the names say. -/
theorem Leads.eq_append_of_zero {p q : Place} {names : List String} (h : Leads d p names q 0)
    (hup : ∀ n ∈ names, n ≠ "..") : q = p ++ names := by
  induction names generalizing p with
  | nil =>
      cases h
      rw [List.append_nil]
  | cons name rest ih =>
      obtain ⟨hname, hrest⟩ := List.forall_mem_cons.mp hup
      cases h with
      | up => exact absurd rfl hname
      | enter _ _ h =>
          rw [ih h hrest, List.append_assoc]
          rfl

/-- What is spelled from the root goes nowhere up. -/
theorem ne_up_of_mem_spelled {n : String} (hn : n ∈ Path.spelled base s) : n ≠ ".." := by
  have hfold (names seen : List String) (hseen : ∀ n ∈ seen, n ≠ "..") :
      ∀ n ∈ names.foldl (Path.cancel true) seen, n ≠ ".." := by
    induction names generalizing seen with
    | nil => exact hseen
    | cons name rest ih => exact ih _ fun n hn => Path.ne_up_of_mem_cancel hseen hn
  rw [Path.spelled, Path.names_normalize_of_isAbsolute (Path.isAbsolute_join rfl _), List.mem_reverse] at hn
  exact hfold _ [] (List.forall_mem_nil _) n hn

theorem isEntry_of_mem_spelled {n : String} (hbase : ∀ n ∈ base, Path.IsEntry n) (hs : Path.holdsNul s = false)
    (hn : n ∈ Path.spelled base s) : Path.IsEntry n := by
  have hup := ne_up_of_mem_spelled hn
  have hmem : n ∈ base ∨ n ∈ (Path.ofString s).names := by
    have hmem := Path.mem_of_mem_normalize hn
    unfold Path.join at hmem
    split_ifs at hmem
    · exact .inr hmem
    · exact List.mem_append.mp hmem
  rcases hmem with hmem | hmem
  · exact hbase n hmem
  · exact ⟨Path.isName_of_mem_ofString hmem, hup, Path.holdsNul_of_mem_ofString hs hmem⟩

namespace Straight

theorem leads (h : d.Straight base s) :
    Leads d [] ((Path.ofPlace base).join (Path.ofString s)).names (Path.spelled base s) 0 := by
  rw [Path.spelled, Path.names_normalize_of_isAbsolute (Path.isAbsolute_join rfl _)]
  exact leads_of_unlinked (List.forall_mem_nil _) h.unlinked

theorem solid (h : d.Straight base s) : d.Solid (Path.spelled base s) :=
  h.leads.solid (solid_nil d)

/-- The names of a path that is seen from `base` lead on from there. -/
theorem leads_from (h : d.Straight base s) (hbase : ∀ n ∈ base, n ≠ "..") :
    Leads d (if (Path.ofString s).isAbsolute then [] else base) (Path.ofString s).names (Path.spelled base s) 0 := by
  have hleads := h.leads
  by_cases habs : (Path.ofString s).isAbsolute = true
  · rw [Path.join_of_isAbsolute habs] at hleads
    rwa [if_pos habs]
  · have hnames : ((Path.ofPlace base).join (Path.ofString s)).names = base ++ (Path.ofString s).names := by
      rw [Path.join, if_neg habs]
      rfl
    rw [hnames] at hleads
    obtain ⟨m, i, j, hfront, hback, hcount⟩ := hleads.split
    obtain ⟨rfl, rfl⟩ : i = 0 ∧ j = 0 := by omega
    obtain rfl : m = base := hfront.eq_append_of_zero hbase
    rwa [if_neg habs]

theorem placeOf (h : d.Straight base s) (hbase : ∀ n ∈ base, n ≠ "..") :
    d.placeOf base (Path.ofString s) = Path.spelled base s :=
  placeOf_eq (h.leads_from hbase)

/-- A path from the root on is looked up from anywhere. -/
theorem placeOf_join (h : d.Straight base s) (cwd : Place) :
    d.placeOf cwd ((Path.ofPlace base).join (Path.ofString s)) = Path.spelled base s := by
  apply placeOf_eq (k := 0)
  rw [if_pos (Path.isAbsolute_join rfl _)]
  exact h.leads

end Straight

end Disk

namespace Vantage

variable {v : Vantage} {base : Place} {s : String}

theorem resolve_of_placeOf {p : Path} {q : Place} (hnul : p.names.any Path.holdsNul = false)
    (hplace : v.disk.placeOf v.cwd p = q) (hsolid : v.disk.Solid q) (hup : ∀ n ∈ q, n ≠ "..") :
    v.resolve p = .ok (Path.ofPlace q) := by
  have hloop := Disk.stat_ne_tooManyLinks v.cwd hsolid hup
  subst hplace
  exact resolve_eq_ok_iff.mpr ⟨hnul, hloop, rfl⟩

/-- A place without links on the way to it is its own true path. -/
theorem resolve_ofPlace {q : Place} (hsolid : v.disk.Solid q) (hq : ∀ n ∈ q, Path.IsEntry n) :
    v.resolve (Path.ofPlace q) = .ok (Path.ofPlace q) := by
  have hup : ∀ n ∈ q, n ≠ ".." := fun n hn => (hq n hn).notUp
  have hnul : (Path.ofPlace q).names.any Path.holdsNul = false := Path.any_holdsNul fun n hn => (hq n hn).noNul
  exact resolve_of_placeOf hnul (Disk.placeOf_ofPlace hsolid hup) hsolid hup

/-- Where no link is on the way, the true path of a text is the normalized one. -/
theorem resolve_of_straight (h : v.disk.Straight v.cwd s) (hcwd : ∀ n ∈ v.cwd, n ≠ "..") :
    v.resolve (Path.ofString s) = .ok (Path.ofPlace (Path.spelled v.cwd s)) := by
  apply resolve_of_placeOf
  · exact Path.any_holdsNul fun n hn => Path.holdsNul_of_mem_ofString h.noNul hn
  · exact h.placeOf hcwd
  · exact h.solid
  · exact fun n hn => Disk.ne_up_of_mem_spelled hn

/-- So it is for a text that is seen from another place than the current directory. -/
theorem resolve_join_of_straight (h : v.disk.Straight base s) (hbase : ∀ n ∈ base, Path.holdsNul n = false) :
    v.resolve ((Path.ofPlace base).join (Path.ofString s)) = .ok (Path.ofPlace (Path.spelled base s)) := by
  apply resolve_of_placeOf
  · refine Path.any_holdsNul fun n hn => ?_
    unfold Path.join at hn
    split_ifs at hn
    · exact Path.holdsNul_of_mem_ofString h.noNul hn
    · rcases List.mem_append.mp hn with hn | hn
      · exact hbase n hn
      · exact Path.holdsNul_of_mem_ofString h.noNul hn
  · exact h.placeOf_join v.cwd
  · exact h.solid
  · exact fun n hn => Disk.ne_up_of_mem_spelled hn

end Vantage

end Namesake
