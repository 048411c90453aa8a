import Namesake.Proofs.Verdict

/-! Other octets in a file. Links and directories stay what they are, so every look-up takes the same way and
ends at the same place or fails for the same reason; only what is read from the one file differs. A path that
leads to a file can be written as soon as it can be read, and its true path can always be told. -/

namespace Namesake

open Text

namespace Disk

variable {d : Disk} {cwd q : Place} {old : Octets}

/-- What is at the place `p` when the file at `q` holds `c`. -/
def Node.refill (q : Place) (c : Octets) (p : Place) : Node → Node
  | .file x => .file (if p = q then c else x)
  | n => n

def Found.refill (q : Place) (c : Octets) : Found → Found
  | .present p n => .present p (Node.refill q c p n)
  | .absent p => .absent p

theorem ne_nil_of_file (hq : d.find? q = some (.file old)) : q ≠ [] := by
  rintro rfl
  rw [find?, if_pos rfl] at hq
  cases hq

theorem find?_put_file (hq : d.find? q = some (.file old)) (c : Octets) (p : Place) :
    (d.put q (.file c)).find? p = if p = q then some (.file c) else d.find? p :=
  find?_put d _ (ne_nil_of_file hq) p

theorem find?_refill (hq : d.find? q = some (.file old)) (c : Octets) (p : Place) :
    (d.put q (.file c)).find? p = (d.find? p).map (Node.refill q c p) := by
  rw [find?_put_file hq]
  by_cases hp : p = q
  · rw [if_pos hp, hp, hq]
    simp [Node.refill]
  · rw [if_neg hp]
    cases d.find? p with
    | none => rfl
    | some n => cases n <;> simp [Node.refill, hp]

/-- One step down from a directory. -/
theorem follow_child {last : Bool} {links : Nat} {p : Place} {name : String} {rest : List String}
    (hp : d.find? p = some .directory) (hname : name ≠ "..") (hlong : ¬ nameLimit < Utf8.size name) :
    d.follow last links p (name :: rest) =
      match d.find? (p ++ [name]) with
      | none => if rest = [] then .ok (.absent (p ++ [name])) else .error .missing
      | some (.link target) =>
        if rest = [] ∧ !last then .ok (.present (p ++ [name]) (.link target))
        else
          match links with
          | 0 => .error .tooManyLinks
          | links + 1 => d.follow last links (base p target) ((Path.ofString target).names ++ rest)
      | some _ => d.follow last links (p ++ [name]) rest := by
  rw [follow, hp]
  simp only [if_neg hname, if_neg hlong]
  rfl

/-- The system takes the same way, whatever the file holds. -/
theorem follow_refill (hq : d.find? q = some (.file old)) (c : Octets) (last : Bool) (links : Nat) (p : Place)
    (names : List String) :
    (d.put q (.file c)).follow last links p names = (d.follow last links p names).map (Found.refill q c) := by
  have hfind := find?_refill hq c
  have hdir (p : Place) (hp : d.find? p = some .directory) : (d.put q (.file c)).find? p = some .directory := by
    rw [hfind, hp]
    rfl
  fun_induction follow d last links p names with
  | case1 links p n hp =>
      rw [follow, hfind, hp]
      rfl
  | case2 links p hp =>
      rw [follow, hfind, hp]
      rfl
  | case3 links p name rest hp =>
      rw [follow, hfind, hp]
      rfl
  | case4 links p name rest x hp =>
      rw [follow, hfind, hp]
      rfl
  | case5 links p name rest t hp =>
      rw [follow, hfind, hp]
      rfl
  | case6 links p rest hp ih =>
      rw [follow, hdir p hp]
      exact ih
  | case7 links p name rest hp hname hlong =>
      rw [follow, hdir p hp]
      simp only [if_neg hname, if_pos hlong]
      rfl
  | case8 links p name hp hname hlong child hchild =>
      rw [follow_child (hdir p hp) hname hlong, hfind, show d.find? (p ++ [name]) = none from hchild]
      rfl
  | case9 links p name rest hp hname hlong child hchild hrest =>
      rw [follow_child (hdir p hp) hname hlong, hfind, show d.find? (p ++ [name]) = none from hchild]
      exact if_neg hrest
  | case10 links p name rest hp hname hlong child target hchild hend =>
      rw [follow_child (hdir p hp) hname hlong, hfind, show d.find? (p ++ [name]) = _ from hchild]
      exact if_pos hend
  | case11 p name rest hp hname hlong child target hchild hend =>
      rw [follow_child (hdir p hp) hname hlong, hfind, show d.find? (p ++ [name]) = _ from hchild]
      exact if_neg hend
  | case12 p name rest hp hname hlong child target hchild hend links t ih =>
      rw [follow_child (hdir p hp) hname hlong, hfind, show d.find? (p ++ [name]) = _ from hchild]
      exact (if_neg hend).trans ih
  | case13 links p name rest hp hname hlong child n hn hchild ih =>
      rw [follow_child (hdir p hp) hname hlong, hfind, show d.find? (p ++ [name]) = _ from hchild]
      cases n with
      | link target => exact absurd rfl (hn target)
      | _ => exact ih

theorem look_refill (hq : d.find? q = some (.file old)) (c : Octets) (cwd : Place) (last : Bool) (p : Path) :
    (d.put q (.file c)).look cwd last p = (d.look cwd last p).map (Found.refill q c) := by
  rw [look, look, follow_refill hq]
  split_ifs <;> rfl

/-- A file that the system does not find is not found, and one that is found is the same. -/
theorem read_refill (hq : d.find? q = some (.file old)) (c : Octets) (cwd : Place) (p : Path) :
    (d.put q (.file c)).read cwd p =
      (d.read cwd p).map fun x => if d.placeOf cwd p = q then c else x := by
  unfold read stat
  rw [look_refill hq]
  cases hlook : d.look cwd true p with
  | error t => rfl
  | ok r =>
      cases r with
      | absent m => rfl
      | present m n =>
          cases n with
          | file x =>
              obtain ⟨-, k, hk⟩ := leads_of_look hlook
              rw [placeOf_eq hk]
              rfl
          | _ => rfl

theorem placeOf_refill (hq : d.find? q = some (.file old)) (c : Octets) {cwd : Place} {p : Path} {x : Octets}
    (h : d.read cwd p = .ok x) : (d.put q (.file c)).placeOf cwd p = d.placeOf cwd p := by
  obtain ⟨m, hlook⟩ := look_of_read h
  have hlook' : (d.put q (.file c)).look cwd true p = .ok (.present m (Node.refill q c m (.file x))) := by
    rw [look_refill hq, hlook]
    rfl
  obtain ⟨-, k, hk⟩ := leads_of_look hlook
  obtain ⟨-, k', hk'⟩ := leads_of_look hlook'
  rw [placeOf_eq hk, placeOf_eq hk']

theorem write_of_read {cwd : Place} {p : Path} {x : Octets} (h : d.read cwd p = .ok x) (c : Octets) :
    d.write cwd p c = .ok (d.put (d.placeOf cwd p) (.file c)) := by
  obtain ⟨m, hlook⟩ := look_of_read h
  obtain ⟨-, k, hk⟩ := leads_of_look hlook
  rw [write, hlook, placeOf_eq hk]

/-! ### What stays true of the disk -/

theorem Named.put_file (hd : d.Named) (hq : d.find? q = some (.file old)) (c : Octets) :
    (d.put q (.file c)).Named := by
  have hmem := mem_nodes_of_find? (ne_nil_of_file hq) hq
  have hany : (d.nodes.any fun e => decide (e.1 = q)) = true :=
    List.any_eq_true.mpr ⟨_, hmem, decide_eq_true rfl⟩
  rw [put, if_pos hany]
  intro e he n hn
  obtain ⟨e', he', rfl⟩ := List.mem_map.mp he
  by_cases hplace : e'.1 = q
  · rw [if_pos hplace] at hn
    exact hd _ hmem n hn
  · rw [if_neg hplace] at hn
    exact hd e' he' n hn

theorem Solid.put_file {p : Place} (hp : d.Solid p) (hq : d.find? q = some (.file old)) (c : Octets) :
    (d.put q (.file c)).Solid p := by
  intro front hfront t h
  rw [find?_put_file hq] at h
  by_cases heq : front = q
  · rw [if_pos heq] at h
    cases h
  · rw [if_neg heq] at h
    exact hp front hfront t h

/-- No links are gone through on the way to a place without links before it. -/
theorem follow_ne_tooManyLinks {links : Nat} (p : Place) {names : List String} (h : d.Solid (p ++ names))
    (hup : ∀ n ∈ names, n ≠ "..") : d.follow true links p names ≠ .error .tooManyLinks := by
  fun_induction follow d true links p names with
  | case6 links p rest hp ih => exact absurd rfl (hup _ List.mem_cons_self)
  | case11 p name rest hp hname hlong child target hchild hend =>
      exact absurd hchild (h _ ⟨rest, List.append_assoc p [name] rest⟩ target)
  | case12 p name rest hp hname hlong child target hchild hend links t ih =>
      exact absurd hchild (h _ ⟨rest, List.append_assoc p [name] rest⟩ target)
  | case13 links p name rest hp hname hlong child n hn hchild ih =>
      refine ih ?_ fun n hn => hup n (List.mem_cons_of_mem _ hn)
      rwa [show child = p ++ [name] from rfl, List.append_assoc]
  | _ =>
      intro heq
      cases heq

theorem stat_ne_tooManyLinks (cwd : Place) {p : Place} (h : d.Solid p) (hup : ∀ n ∈ p, n ≠ "..") :
    d.stat cwd (Path.ofPlace p) ≠ .error .tooManyLinks := by
  intro hstat
  have hfollow : d.follow true linkLimit [] p ≠ .error .tooManyLinks := follow_ne_tooManyLinks [] h hup
  have hlook : d.look cwd true (Path.ofPlace p) ≠ .error .tooManyLinks := by
    rw [look]
    by_cases hlong : pathLimit ≤ Utf8.size (Path.ofPlace p).render
    · rw [if_pos hlong]
      intro heq
      cases heq
    · rw [if_neg hlong]
      exact hfollow
  rw [stat] at hstat
  cases hl : d.look cwd true (Path.ofPlace p) with
  | error t =>
      rw [hl] at hstat
      cases hstat
      exact hlook hl
  | ok r =>
      rw [hl] at hstat
      cases r <;> cases hstat

end Disk

namespace Vantage

variable {v : Vantage} {p k : Path} {data : Octets}

/-- The vantage after a file was written. -/
def refill (v : Vantage) (q : Place) (c : Octets) : Vantage :=
  ⟨v.disk.put q (.file c), v.cwd⟩

theorem noNul_of_read (h : v.read p = .ok data) : ¬ p.names.any Path.holdsNul = true :=
  Bool.eq_false_iff.mp (read_eq_ok_iff.mp h).1

/-- What leads to a file can be read. -/
theorem exists_read_of_isFile (h : v.isFile p = .ok true) : ∃ data, v.read p = .ok data := by
  rw [isFile] at h
  by_cases hnul : p.names.any Path.holdsNul = true
  · rw [if_pos hnul] at h
    cases h
  rw [if_neg hnul] at h
  cases hstat : v.disk.stat v.cwd p with
  | error t =>
      rw [hstat] at h
      cases t <;> cases h
  | ok n =>
      rw [hstat] at h
      cases n with
      | file data =>
          refine ⟨data, read_eq_ok_iff.mpr ⟨Bool.eq_false_of_not_eq_true hnul, ?_⟩⟩
          rw [Disk.read, hstat]
      | _ => cases h

theorem placeOf_of_resolve {q : Place} (h : v.resolve p = .ok (Path.ofPlace q)) : v.disk.placeOf v.cwd p = q :=
  congrArg Path.names (resolve_eq_ok_iff.mp h).2.2

/-- The true path of what can be read can be told: it is the place of a file, and no link is on the way to it. -/
theorem exists_holds (hcwd : v.disk.Solid v.cwd) (hnamed : v.disk.Named) (h : v.read p = .ok data) :
    ∃ q, v.Holds p (Path.ofPlace q) data ∧ v.disk.placeOf v.cwd p = q ∧ v.disk.find? q = some (.file data) := by
  obtain ⟨hfind, hsolid⟩ := Disk.placeOf_of_read (.inr hcwd) (read_eq_ok h)
  have hup : ∀ n ∈ v.disk.placeOf v.cwd p, n ≠ ".." := fun n hn => (hnamed.isEntry hfind n hn).notUp
  have hloop := Disk.stat_ne_tooManyLinks v.cwd hsolid hup
  exact ⟨_, ⟨h, resolve_eq_ok_iff.mpr ⟨(read_eq_ok_iff.mp h).1, hloop, rfl⟩⟩, rfl, hfind⟩

theorem read_eq (hnul : ¬ p.names.any Path.holdsNul = true) :
    v.read p = match v.disk.read v.cwd p with
      | .ok x => .ok x
      | .error t => .error (.ofTrouble p t) := by
  unfold read
  exact if_neg hnul

section Refill

variable {q : Place} {old : Octets} (hq : v.disk.find? q = some (.file old)) (c : Octets)

include hq

/-- What cannot be read cannot be read for the same reason when a file holds something else. -/
theorem read_refill_of_error {e : Failure} (h : v.read p = .error e) : (v.refill q c).read p = .error e := by
  by_cases hnul : p.names.any Path.holdsNul = true
  · rw [read, if_pos hnul] at h ⊢
    exact h
  · rw [read_eq hnul] at h ⊢
    rw [refill, Disk.read_refill hq]
    cases hread : v.disk.read v.cwd p with
    | ok x =>
        rw [hread] at h
        cases h
    | error t =>
        rw [hread] at h
        exact h

/-- A file is found at the same place when a file holds something else. -/
theorem holds_refill {m : Place} (hcwd : v.disk.Solid v.cwd) (hnamed : v.disk.Named)
    (h : v.Holds p (Path.ofPlace m) data) :
    (v.refill q c).Holds p (Path.ofPlace m) (if m = q then c else data) := by
  obtain ⟨m', hholds, hplace, hfind⟩ := exists_holds hcwd hnamed h.read
  obtain rfl : m' = m := hplace.symm.trans (placeOf_of_resolve h.resolve)
  have hnul := noNul_of_read h.read
  have hread := read_eq_ok h.read
  have hread' : (v.refill q c).read p = .ok (if m' = q then c else data) := by
    rw [read_eq hnul, refill, Disk.read_refill hq, hread, hplace]
    rfl
  obtain ⟨m, hholds', hplace', -⟩ := exists_holds (hcwd.put_file hq c) (hnamed.put_file hq c) hread'
  have hsame : (v.refill q c).disk.placeOf (v.refill q c).cwd p = v.disk.placeOf v.cwd p :=
    Disk.placeOf_refill hq c hread
  obtain rfl : m = m' := hplace'.symm.trans (hsame.trans hplace)
  exact hholds'

/-- What a path leads to does not depend on what files hold. -/
theorem holds_refill_iff (m : Place) (hcwd : v.disk.Solid v.cwd) (hnamed : v.disk.Named) :
    (∃ x, (v.refill q c).Holds p (Path.ofPlace m) x) ↔ ∃ x, v.Holds p (Path.ofPlace m) x := by
  constructor
  · rintro ⟨x, hx⟩
    cases hread : v.read p with
    | error e => exact absurd (hx.read.symm.trans (read_refill_of_error hq c hread)) nofun
    | ok data =>
        obtain ⟨m', hholds, -, -⟩ := exists_holds hcwd hnamed hread
        have hholds' := holds_refill hq c hcwd hnamed hholds
        have heq : Path.ofPlace m' = Path.ofPlace m := Except.ok.inj (hholds'.resolve.symm.trans hx.resolve)
        exact ⟨data, heq ▸ hholds⟩
  · rintro ⟨x, hx⟩
    exact ⟨_, holds_refill hq c hcwd hnamed hx⟩

end Refill

/-- What can be read can be written. -/
theorem write_of_holds {q : Place} (hcwd : v.disk.Solid v.cwd) (hnamed : v.disk.Named)
    (h : v.Holds p (Path.ofPlace q) data) (c : Octets) : v.write p c = .ok (v.refill q c).disk := by
  obtain ⟨q', hholds, hplace, -⟩ := exists_holds hcwd hnamed h.read
  obtain rfl : q' = q := hplace.symm.trans (placeOf_of_resolve h.resolve)
  obtain ⟨hnul, hread⟩ := read_eq_ok_iff.mp h.read
  refine write_eq_ok_iff.mpr ⟨hnul, ?_⟩
  rw [Disk.write_of_read hread, hplace]
  rfl

end Vantage

end Namesake
