import Namesake.Proofs.Listing

/-! Files in the root of a disk. A short name is looked up in one step, its file is its own true path, and
where the root holds nothing but files the walk meets their names in order. -/

namespace Namesake

open Text

/-- A name that a system takes. -/
structure Path.IsShort (n : String) : Prop extends IsEntry n where
  short : Utf8.size n ≤ Disk.nameLimit

instance (n : String) : Decidable (Path.IsShort n) :=
  decidable_of_iff (Path.IsEntry n ∧ Utf8.size n ≤ Disk.nameLimit)
    ⟨fun ⟨hentry, hshort⟩ => ⟨hentry, hshort⟩, fun h => ⟨h.toIsEntry, h.short⟩⟩

theorem Path.size_render_ofPlace (n : String) : Utf8.size (ofPlace [n]).render = 1 + Utf8.size n := by
  have hrender : (ofPlace [n]).render = "/" ++ n := by
    simp [render, ofPlace, Anchor.text]
  calc Utf8.size (ofPlace [n]).render = (Utf8.encodeChars ("/" ++ n).toList).length := by
        rw [hrender, ← Utf8.length_encode, Utf8.encode]
    _ = (Utf8.encode "/").length + (Utf8.encode n).length := by
        rw [String.toList_append, Utf8.encodeChars_append, List.length_append, Utf8.encode, Utf8.encode]
    _ = 1 + Utf8.size n := by
        rw [Utf8.length_encode n]
        rfl

namespace Disk

variable {d : Disk} {cwd : Place} {n : String} {data : Octets}

theorem find?_nil (d : Disk) : d.find? [] = some .directory := if_pos rfl

theorem look_root (d : Disk) (cwd : Place) (last : Bool) :
    d.look cwd last (Path.ofPlace []) = .ok (.present [] .directory) := by
  have hsize : ¬ pathLimit ≤ Utf8.size (Path.ofPlace []).render := by decide
  rw [look, if_neg hsize]
  show d.follow last linkLimit [] [] = _
  rw [follow, find?_nil]

theorem look_name (cwd : Place) (last : Bool) (hn : Path.IsShort n) (hlink : ∀ t, d.find? [n] ≠ some (.link t)) :
    d.look cwd last (Path.ofPlace [n]) =
      match d.find? [n] with
      | none => .ok (.absent [n])
      | some m => .ok (.present [n] m) := by
  have hlimit : ¬ nameLimit < Utf8.size n := Nat.not_lt.mpr hn.short
  have hpath : ¬ pathLimit ≤ Utf8.size (Path.ofPlace [n]).render := by
    have hshort := hn.short
    rw [Path.size_render_ofPlace]
    unfold pathLimit nameLimit at *
    omega
  rw [look, if_neg hpath]
  show d.follow last linkLimit [] [n] = _
  cases hfind : d.find? [n] with
  | none =>
      rw [follow, find?_nil]
      simp only [if_neg hn.notUp, if_neg hlimit, List.nil_append, hfind, if_true]
  | some m =>
      have hm : ∀ t, m ≠ .link t := fun t ht => hlink t (ht ▸ hfind)
      rw [follow_enter (find?_nil d) hn.notUp hlimit hfind hm, List.nil_append, follow, hfind]

theorem look_file (cwd : Place) (last : Bool) (hn : Path.IsShort n) (h : d.find? [n] = some (.file data)) :
    d.look cwd last (Path.ofPlace [n]) = .ok (.present [n] (.file data)) := by
  rw [look_name cwd last hn (by simp [h]), h]

theorem look_free (cwd : Place) (last : Bool) (hn : Path.IsShort n) (h : d.find? [n] = none) :
    d.look cwd last (Path.ofPlace [n]) = .ok (.absent [n]) := by
  rw [look_name cwd last hn (by simp [h]), h]

theorem look_tooLong (cwd : Place) (last : Bool) (hup : n ≠ "..") (hlong : nameLimit < Utf8.size n) :
    d.look cwd last (Path.ofPlace [n]) = .error .tooLong := by
  rw [look]
  by_cases hpath : pathLimit ≤ Utf8.size (Path.ofPlace [n]).render
  · rw [if_pos hpath]
  · rw [if_neg hpath]
    show d.follow last linkLimit [] [n] = _
    rw [follow, find?_nil]
    simp only [if_neg hup, if_pos hlong]

theorem isDirectory_file (cwd : Place) (hn : Path.IsShort n) (h : d.find? [n] = some (.file data)) :
    d.isDirectory cwd (Path.ofPlace [n]) = false := by
  rw [isDirectory, stat, look_file cwd true hn h]

/-- Where nothing in the root leads to a directory the walk meets what is in the root. -/
theorem filesBelow_root (hfiles : ∀ n ∈ d.children [], d.isDirectory [] (Path.ofPlace [n]) = false) (links : Bool) :
    d.filesBelow links [] = (d.children []).map fun n => [n] := by
  have hdirs : (d.children []).filter (fun n => d.isDirectory [] (Path.ofPlace [n])) = [] :=
    List.filter_eq_nil_iff.mpr fun n hn => by simp [hfiles n hn]
  have hrest : (d.children []).filter (not ∘ fun n => d.isDirectory [] (Path.ofPlace [n])) = d.children [] :=
    List.filter_eq_self.mpr fun n hn => by simp [hfiles n hn]
  have hbound : d.walkBound = (d.walkBound - 1) + 1 := by
    rw [walkBound, linkLimit]
    omega
  rw [filesBelow, hbound, walk, look_root]
  simp only [List.partition_eq_filter_filter, List.nil_append, hdirs, hrest, List.filter_nil, List.flatMap_nil,
    List.append_nil]

theorem placeOf_name (cwd : Place) (hn : Path.IsShort n) (hlink : ∀ t, d.find? [n] ≠ some (.link t)) :
    d.placeOf cwd (Path.ofPlace [n]) = [n] :=
  placeOf_ofPlace ((solid_nil d).append hlink) (List.forall_mem_singleton.mpr hn.notUp)

end Disk

namespace Vantage

variable {d : Disk} {cwd : Place} {n : String} {data : Octets}

theorem noNul_of_isShort (hn : Path.IsShort n) : (Path.ofPlace [n]).names.any Path.holdsNul = false := by
  simp [Path.ofPlace, hn.noNul]

/-- A name that is no link is its own true path. -/
theorem resolve_name (hn : Path.IsShort n) (hlink : ∀ t, d.find? [n] ≠ some (.link t)) :
    resolve ⟨d, cwd⟩ (Path.ofPlace [n]) = .ok (Path.ofPlace [n]) := by
  have hplace := Disk.placeOf_name cwd hn hlink
  refine resolve_eq_ok_iff.mpr ⟨noNul_of_isShort hn, ?_, by rw [hplace]⟩
  rw [hplace, Disk.stat, Disk.look_name cwd true hn hlink]
  intro hloop
  cases hfind : d.find? [n] <;> rw [hfind] at hloop <;> cases hloop

theorem holds_file (hn : Path.IsShort n) (h : d.find? [n] = some (.file data)) :
    Holds ⟨d, cwd⟩ (Path.ofPlace [n]) (Path.ofPlace [n]) data := by
  refine ⟨?_, resolve_name hn (by simp [h])⟩
  rw [read, noNul_of_isShort hn, Disk.read, Disk.stat, Disk.look_file cwd true hn h]
  rfl

theorem read_free (hn : Path.IsShort n) (h : d.find? [n] = none) :
    read ⟨d, cwd⟩ (Path.ofPlace [n]) = .error (.ofTrouble (Path.ofPlace [n]) .missing) := by
  rw [read, noNul_of_isShort hn, Disk.read, Disk.stat, Disk.look_free cwd true hn h]
  rfl

theorem isFile_file (hn : Path.IsShort n) (h : d.find? [n] = some (.file data)) :
    isFile ⟨d, cwd⟩ (Path.ofPlace [n]) = .ok true := by
  rw [isFile, noNul_of_isShort hn, Disk.stat, Disk.look_file cwd true hn h]
  rfl

theorem isFile_tooLong (hnul : Path.holdsNul n = false) (hup : n ≠ "..") (hlong : Disk.nameLimit < Utf8.size n) :
    isFile ⟨d, cwd⟩ (Path.ofPlace [n]) = .error (.ofTrouble (Path.ofPlace [n]) .tooLong) := by
  have hnames : (Path.ofPlace [n]).names.any Path.holdsNul = false := by simp [Path.ofPlace, hnul]
  rw [isFile, hnames, Disk.stat, Disk.look_tooLong cwd true hup hlong]
  rfl

theorem write_name (hn : Path.IsShort n) (h : ∀ m, d.find? [n] = some m → ∃ data, m = .file data) :
    write ⟨d, cwd⟩ (Path.ofPlace [n]) data = .ok (d.put [n] (.file data)) := by
  rw [write, noNul_of_isShort hn, Disk.write]
  cases hfind : d.find? [n] with
  | none => rw [Disk.look_free cwd true hn hfind]; rfl
  | some m =>
      obtain ⟨data', rfl⟩ := h m hfind
      rw [Disk.look_file cwd true hn hfind]
      rfl

/-- The root is its own true path, also as seen from itself. -/
theorem resolve_root (d : Disk) (a : Anchor) : resolve ⟨d, []⟩ ⟨a, []⟩ = .ok (Path.ofPlace []) := by
  have hplace : d.placeOf [] ⟨a, []⟩ = [] := by
    refine @Disk.placeOf_eq d [] ⟨a, []⟩ [] 0 ?_
    rw [ite_self]
    exact .done []
  refine resolve_eq_ok_iff.mpr ⟨rfl, ?_, by rw [hplace]⟩
  rw [hplace, Disk.stat, Disk.look_root]
  intro hloop
  cases hloop

end Vantage

/-! ### Disks with files in the root only -/

namespace Disk

/-- A disk that holds files in its root and nothing else. -/
def flat (files : List (String × Octets)) : Disk :=
  ⟨files.map fun f => ([f.1], .file f.2)⟩

variable {files : List (String × Octets)} {n : String} {data : Octets}

theorem find?_flat (files : List (String × Octets)) (n : String) :
    (flat files).find? [n] = (files.find? fun f => f.1 = n).map fun f => .file f.2 := by
  rw [find?, if_neg (List.cons_ne_nil _ _), flat, List.find?_map, Option.map_map]
  simp [Function.comp_def]

theorem exists_file_of_mem (h : n ∈ files.map Prod.fst) : ∃ data, (flat files).find? [n] = some (.file data) := by
  rw [find?_flat]
  cases hfind : files.find? fun f => f.1 = n with
  | some f => exact ⟨f.2, rfl⟩
  | none =>
      obtain ⟨f, hf, rfl⟩ := List.mem_map.mp h
      exact absurd (List.find?_eq_none.mp hfind f hf) (by simp)

theorem find?_flat_of_not_mem (h : n ∉ files.map Prod.fst) : (flat files).find? [n] = none := by
  rw [find?_flat, Option.map_eq_none_iff, List.find?_eq_none]
  intro f hf heq
  exact h (List.mem_map.mpr ⟨f, hf, of_decide_eq_true heq⟩)

theorem put_flat (h : n ∉ files.map Prod.fst) : (flat files).put [n] (.file data) = flat (files ++ [(n, data)]) := by
  have hfree : ¬ ((flat files).nodes.any fun e => decide (e.1 = [n])) = true := by
    rw [List.any_eq_true]
    rintro ⟨e, he, heq⟩
    obtain ⟨f, hf, rfl⟩ := List.mem_map.mp he
    refine h (List.mem_map.mpr ⟨f, hf, ?_⟩)
    simpa using heq
  rw [put, if_neg hfree, flat, flat, List.map_append]
  rfl

theorem named_flat (h : ∀ f ∈ files, Path.IsEntry f.1) : (flat files).Named := by
  intro e he n hn
  obtain ⟨f, hf, rfl⟩ := List.mem_map.mp he
  rw [List.mem_singleton.mp hn]
  exact h f hf

theorem children_flat_perm (files : List (String × Octets)) : ((flat files).children []).Perm (files.map Prod.fst) := by
  refine (List.mergeSort_perm _ _).trans (List.Perm.of_eq ?_)
  rw [flat, List.filterMap_map]
  simp only [Function.comp_def, Path.dropFront?, List.filterMap_eq_map']

/-- A walk whose last name is a proper one ends at a place of this name where there are no links. -/
theorem Leads.eq_append {d : Disk} {p q : Place} {front : List String} {k : Nat}
    (h : Leads d p (front ++ [n]) q k) (hn : n ≠ "..") (hlinks : ∀ m t, d.find? m ≠ some (.link t)) :
    ∃ m, q = m ++ [n] := by
  obtain ⟨m, i, j, -, hlast, -⟩ := h.split
  cases hlast with
  | up => exact absurd rfl hn
  | enter _ _ hdone =>
      cases hdone
      exact ⟨m, rfl⟩
  | via _ hlink => exact absurd hlink (hlinks _ _)

theorem not_link_flat (files : List (String × Octets)) (m : Place) (t : String) :
    (flat files).find? m ≠ some (.link t) := by
  intro h
  by_cases hm : m = []
  · rw [hm, find?_nil] at h
    cases h
  · obtain ⟨f, -, heq⟩ := List.mem_map.mp (mem_nodes_of_find? hm h)
    cases heq

/-- What a source on a flat disk holds is what one of its sources holds. -/
theorem mem_of_read_flat {cwd : Place} {p : Path} (hp : Language.isSource p = true)
    (h : (flat files).read cwd p = .ok data) :
    ∃ n, (n, data) ∈ files ∧ Language.isSource (Path.ofPlace [n]) = true := by
  have hsource (q : Path) (hname : q.name = p.name) : Language.isSource q = true := by
    rw [Language.isSource, Path.suffix, hname]
    exact hp
  have hup : p.name ≠ ".." := by
    intro hname
    have hdots : Language.isSource ⟨.root, [".."]⟩ = true := hsource _ hname.symm
    exact absurd hdots (by decide)
  obtain ⟨front, n, hnames⟩ : ∃ front n, p.names = front ++ [n] := by
    rcases List.eq_nil_or_concat p.names with hnil | ⟨front, n, hnames⟩
    · have hempty : Language.isSource ⟨.root, []⟩ = true := hsource _ (by rw [Path.name, Path.name, hnil])
      exact absurd hempty (by decide)
    · exact ⟨front, n, by rw [hnames, List.concat_eq_append]⟩
  have hlast : p.name = n := by rw [Path.name, hnames, List.getLast?_concat, Option.getD_some]
  obtain ⟨q, k, hfind, hleads⟩ := leads_of_read h
  rw [hnames] at hleads
  obtain ⟨m, rfl⟩ := hleads.eq_append (hlast ▸ hup) (not_link_flat files)
  obtain ⟨f, hf, heq⟩ := List.mem_map.mp (mem_nodes_of_find? (by simp) hfind)
  obtain ⟨hplace, hnode⟩ := Prod.mk.inj heq
  obtain ⟨rfl, rfl⟩ : f.1 = n ∧ f.2 = data := by
    refine ⟨?_, Node.file.inj hnode⟩
    have hlen := congrArg List.length hplace
    obtain rfl : m = [] := by simpa using hlen
    simpa using hplace
  exact ⟨f.1, hf, hsource _ (by rw [hlast]; rfl)⟩

end Disk

namespace FileList

variable {l : FileList}

theorem sources_root {d : Disk} (hl : l.root = Path.ofPlace [])
    (hfiles : ∀ n ∈ d.children [], d.isDirectory [] (Path.ofPlace [n]) = false) :
    l.sources d = ((d.children []).map fun n => Path.ofPlace [n]).filter Language.isSource := by
  have hbelow := Disk.filesBelow_root hfiles l.followLinks
  rw [sources, hl]
  show (List.map _ (d.filesBelow l.followLinks [])).filter _ = _
  rw [hbelow, List.map_map]
  rfl

/-- The sources on a flat disk are those of its files that are sources. -/
theorem sources_flat {files : List (String × Octets)} (hl : l.root = Path.ofPlace [])
    (hshort : ∀ f ∈ files, Path.IsShort f.1) :
    (l.sources (.flat files)).Perm ((files.map fun f => Path.ofPlace [f.1]).filter Language.isSource) := by
  have hperm := Disk.children_flat_perm files
  have hfiles : ∀ n ∈ (Disk.flat files).children [], (Disk.flat files).isDirectory [] (Path.ofPlace [n]) = false := by
    intro n hn
    have hmem := hperm.mem_iff.mp hn
    obtain ⟨data, hfind⟩ := Disk.exists_file_of_mem hmem
    obtain ⟨f, hf, rfl⟩ := List.mem_map.mp hmem
    exact Disk.isDirectory_file [] (hshort f hf) hfind
  have hmap := (hperm.map fun n => Path.ofPlace [n]).filter Language.isSource
  rwa [← sources_root hl hfiles, List.map_map] at hmap

end FileList

end Namesake
