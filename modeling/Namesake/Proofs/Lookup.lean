import Namesake.Proofs.Spelling
import Namesake.Vantage

/-! Looking a path up and finding its true place. `Leads` is the walk itself, without bounds: what the system
walks to the end is such a walk, and where such a walk exists the search for the true place finds its end.
A walk that met a link while it follows this very link would need more links than it has, so no link is
ever active when it is met, and each active link lowers what is left of the bound on the depth. -/

namespace Namesake

/-- A name that something on a disk can have. -/
structure Path.IsEntry (s : String) : Prop extends IsName s where
  notUp : s ≠ ".."
  noNul : holdsNul s = false

instance (s : String) : Decidable (Path.IsEntry s) :=
  decidable_of_iff ((s ≠ "" ∧ s ≠ "." ∧ '/' ∉ s.toList) ∧ s ≠ ".." ∧ Path.holdsNul s = false)
    ⟨fun ⟨⟨hempty, hdot, hslash⟩, hup, hnul⟩ => ⟨⟨hempty, hdot, hslash⟩, hup, hnul⟩,
      fun h => ⟨⟨h.nonempty, h.notDot, h.noSlash⟩, h.notUp, h.noNul⟩⟩

theorem Path.mem_of_mem_cancel {absolute : Bool} {seen : List String} {name n : String}
    (h : n ∈ cancel absolute seen name) : n = name ∨ n ∈ seen := by
  by_cases hup : name = ".."
  · cases seen with
    | nil => cases absolute <;> simp_all [cancel]
    | cons last rest =>
        simp only [cancel, if_pos hup] at h
        by_cases hlast : last = ".."
        · rw [if_pos hlast] at h
          exact List.mem_cons.mp h
        · rw [if_neg hlast] at h
          exact .inr (List.mem_cons_of_mem _ h)
  · simp only [cancel, if_neg hup] at h
    exact List.mem_cons.mp h

/-- Cancelling keeps only names that are there. -/
theorem Path.mem_of_mem_normalize {p : Path} {n : String} (h : n ∈ p.normalize.names) : n ∈ p.names := by
  have hfold (names seen : List String) (hn : n ∈ names.foldl (cancel p.isAbsolute) seen) :
      n ∈ names ∨ n ∈ seen := by
    induction names generalizing seen with
    | nil => exact .inr hn
    | cons name names ih =>
        rcases ih _ hn with hn | hn
        · exact .inl (List.mem_cons_of_mem _ hn)
        · rcases mem_of_mem_cancel hn with rfl | hn
          · exact .inl List.mem_cons_self
          · exact .inr hn
  rw [normalize, List.mem_reverse] at h
  exact (hfold p.names [] h).resolve_right List.not_mem_nil

namespace Disk

/-- Everything on the disk has a name that a system would allow. -/
def Named (d : Disk) : Prop :=
  ∀ e ∈ d.nodes, ∀ n ∈ e.1, Path.IsEntry n

/-- Where the target of a link is looked up, seen from the directory of the link. -/
def base (p : Place) (target : String) : Place :=
  if (Path.ofString target).isAbsolute then [] else p

/-- From the place `p` the names lead to the place `q`, through `k` links. -/
inductive Leads (d : Disk) : Place → List String → Place → Nat → Prop
  | done (p : Place) : Leads d p [] p 0
  | up {p q : Place} {rest : List String} {k : Nat} (h : Leads d p.dropLast rest q k) :
      Leads d p (".." :: rest) q k
  | enter {p q : Place} {name : String} {rest : List String} {k : Nat} (hname : name ≠ "..")
      (hlink : ∀ t, d.find? (p ++ [name]) ≠ some (.link t)) (h : Leads d (p ++ [name]) rest q k) :
      Leads d p (name :: rest) q k
  | via {p m q : Place} {name target : String} {rest : List String} {j k : Nat} (hname : name ≠ "..")
      (hlink : d.find? (p ++ [name]) = some (.link target))
      (hfirst : Leads d (base p target) (Path.ofString target).names m j) (h : Leads d m rest q k) :
      Leads d p (name :: rest) q (j + k + 1)

namespace Leads

variable {d : Disk} {p q : Place} {names : List String} {k : Nat}

theorem unique (h : Leads d p names q k) {q' : Place} {k' : Nat} (h' : Leads d p names q' k') :
    q = q' ∧ k = k' := by
  induction h generalizing q' k' with
  | done p =>
      cases h'
      exact ⟨rfl, rfl⟩
  | up h ih =>
      cases h' with
      | up h' => exact ih h'
      | enter hname => exact absurd rfl hname
      | via hname => exact absurd rfl hname
  | enter hname hlink h ih =>
      cases h' with
      | up => exact absurd rfl hname
      | enter _ _ h' => exact ih h'
      | via _ hlink' => exact absurd hlink' (hlink _)
  | via hname hlink hfirst h ihfirst ih =>
      cases h' with
      | up => exact absurd rfl hname
      | enter _ hlink' => exact absurd hlink (hlink' _)
      | via _ hlink' hfirst' h' =>
          rw [hlink] at hlink'
          cases hlink'
          obtain ⟨rfl, rfl⟩ := ihfirst hfirst'
          obtain ⟨rfl, rfl⟩ := ih h'
          exact ⟨rfl, rfl⟩

/-- A walk along two lists of names stops between them. -/
theorem split {front back : List String} (h : Leads d p (front ++ back) q k) :
    ∃ m i j, Leads d p front m i ∧ Leads d m back q j ∧ k = i + j := by
  induction front generalizing p k with
  | nil => exact ⟨p, 0, k, .done p, h, (Nat.zero_add k).symm⟩
  | cons name front ih =>
      rw [List.cons_append] at h
      cases h with
      | up h =>
          obtain ⟨m, i, j, hfront, hback, rfl⟩ := ih h
          exact ⟨m, i, j, .up hfront, hback, rfl⟩
      | enter hname hlink h =>
          obtain ⟨m, i, j, hfront, hback, rfl⟩ := ih h
          exact ⟨m, i, j, .enter hname hlink hfront, hback, rfl⟩
      | via hname hlink hfirst h =>
          obtain ⟨m, i, j, hfront, hback, rfl⟩ := ih h
          exact ⟨m, _, j, .via hname hlink hfirst hfront, hback, by omega⟩

/-- A walk goes on where another one ends. -/
theorem append {m : Place} {front back : List String} {i j : Nat} (h : Leads d p front m i)
    (h' : Leads d m back q j) : Leads d p (front ++ back) q (i + j) := by
  induction h with
  | done p =>
      rw [Nat.zero_add]
      exact h'
  | up h ih => exact .up (ih h')
  | enter hname hlink h ih => exact .enter hname hlink (ih h')
  | @via p l m name target rest a b hname hlink hfirst h ihfirst ih =>
      have hcount : a + b + 1 + j = a + (b + j) + 1 := by omega
      rw [hcount]
      exact .via hname hlink hfirst (ih h')

end Leads

/-- What the system walks to the end is a walk. -/
theorem leads_of_follow {d : Disk} {links : Nat} {p : Place} {names : List String} {q : Place} {n : Node}
    (h : d.follow true links p names = .ok (.present q n)) :
    d.find? q = some n ∧ ∃ k, Leads d p names q k := by
  fun_induction follow d true links p names with
  | case1 links p n' hp =>
      cases h
      exact ⟨hp, 0, .done _⟩
  | case6 links p rest hp ih =>
      obtain ⟨hq, k, hk⟩ := ih h
      exact ⟨hq, k, .up hk⟩
  | case10 links p name rest hp hname hsize child target hchild hlast => exact absurd hlast.2 (by decide)
  | case12 p name rest hp hname hsize child target hchild hlast links t ih =>
      obtain ⟨hq, k, hk⟩ := ih h
      obtain ⟨m, i, j, hfirst, hrest, -⟩ := hk.split
      exact ⟨hq, _, .via hname hchild hfirst hrest⟩
  | case13 links p name rest hp hname hsize child n' hn' hchild ih =>
      obtain ⟨hq, k, hk⟩ := ih h
      refine ⟨hq, k, .enter hname (fun t ht => hn' t ?_) hk⟩
      exact Option.some.inj (hchild.symm.trans ht)
  | _ => cases h

/-! ### The true place -/

theorem mem_nodes_of_find? {d : Disk} {p : Place} {n : Node} (hp : p ≠ []) (h : d.find? p = some n) :
    (p, n) ∈ d.nodes := by
  rw [find?, if_neg hp, Option.map_eq_some_iff] at h
  obtain ⟨e, he, rfl⟩ := h
  have hplace := List.find?_some he
  rw [decide_eq_true_eq] at hplace
  rw [← hplace]
  exact List.mem_of_find?_eq_some he

/-- What an entry adds to the bound on the depth while the links at the places `active` are followed. -/
def linkCost (active : List Place) : Place × Node → Nat
  | (p, .link target) => if active.contains p then 0 else (Path.ofString target).names.length + 1
  | _ => 0

/-- What all entries add to it. -/
def linkWeight (active : List Place) (nodes : List (Place × Node)) : Nat :=
  (nodes.map (linkCost active)).sum

theorem linkWeight_cons (active : List Place) (e : Place × Node) (nodes : List (Place × Node)) :
    linkWeight active (e :: nodes) = linkCost active e + linkWeight active nodes := by
  rw [linkWeight, List.map_cons, List.sum_cons, linkWeight]

theorem linkCost_cons_le (active : List Place) (p : Place) (e : Place × Node) :
    linkCost (p :: active) e ≤ linkCost active e := by
  obtain ⟨q, n⟩ := e
  cases n with
  | link target =>
      simp only [linkCost, List.contains_iff_mem, List.mem_cons]
      by_cases hq : q ∈ active
      · rw [if_pos (.inr hq)]
        exact Nat.zero_le _
      · rw [if_neg hq]
        split_ifs
        · exact Nat.zero_le _
        · exact Nat.le_refl _
  | _ => exact Nat.le_refl _

/-- A link that becomes active no longer counts. -/
theorem linkWeight_of_mem {active : List Place} {p : Place} {target : String} {nodes : List (Place × Node)}
    (hp : p ∉ active) (h : (p, .link target) ∈ nodes) :
    linkWeight (p :: active) nodes + ((Path.ofString target).names.length + 1) ≤ linkWeight active nodes := by
  induction nodes with
  | nil => cases h
  | cons e nodes ih =>
      rw [linkWeight_cons, linkWeight_cons]
      rcases List.mem_cons.mp h with rfl | h
      · have hrest : linkWeight (p :: active) nodes ≤ linkWeight active nodes :=
          List.sum_le_sum fun e _ => linkCost_cons_le active p e
        rw [linkCost, linkCost, if_pos (List.contains_iff_mem.mpr List.mem_cons_self),
          if_neg (List.contains_iff_mem.not.mpr hp)]
        omega
      · have hhead := linkCost_cons_le active p e
        have hrest := ih h
        omega

theorem depthBound_eq (d : Disk) (count : Nat) : d.depthBound count = count + 1 + linkWeight [] d.nodes := by
  unfold depthBound
  generalize count + 1 = n
  induction d.nodes generalizing n with
  | nil => rfl
  | cons e nodes ih =>
      obtain ⟨p, m⟩ := e
      rw [List.foldl_cons, ih, linkWeight_cons]
      cases m with
      | link target =>
          simp only [linkCost, List.contains_nil, Bool.false_eq_true, if_false, Path.ofString]
          omega
      | _ => simp only [linkCost, Nat.zero_add]

/-- Along a walk the search goes on where the walk ends. -/
theorem expand_append {d : Disk} {p : Place} {front : List String} {m : Place} {k : Nat} (h : Leads d p front m k)
    {depth : Nat} {active : List Place} (hactive : ∀ l name r j, l ++ [name] ∈ active → Leads d l [name] r j → k < j)
    (hdepth : linkWeight active d.nodes < depth) (back : List String) :
    d.expand (front.length + depth) active p (front ++ back) = d.expand depth active m back := by
  induction h generalizing depth active back with
  | done p => rw [List.length_nil, Nat.zero_add, List.nil_append]
  | up h ih =>
      rw [List.length_cons, Nat.add_right_comm, List.cons_append, expand, if_pos rfl]
      exact ih hactive hdepth back
  | enter hname hlink h ih =>
      rw [List.length_cons, Nat.add_right_comm, List.cons_append, expand, if_neg hname]
      dsimp only
      split
      · rename_i target hchild
        exact absurd hchild (hlink target)
      · exact ih hactive hdepth back
  | @via p l q name target rest j k hname hlink hfirst h ihfirst ih =>
      have hself : Leads d p [name] l (j + 0 + 1) := .via hname hlink hfirst (.done l)
      -- What leads through the links under way goes through more links than are left, so this one is not under way.
      have hidle : p ++ [name] ∉ active := by
        intro hmem
        have := hactive p name l _ hmem hself
        omega
      have hweight := linkWeight_of_mem hidle (mem_nodes_of_find? (by simp) hlink)
      have hinner : d.expand (rest.length + depth) ((p ++ [name]) :: active) (base p target)
          (Path.ofString target).names = .ok l := by
        obtain ⟨spare, hspare⟩ := Nat.exists_eq_add_of_le
          (show (Path.ofString target).names.length + 1 ≤ rest.length + depth by omega)
        have happend : d.expand ((Path.ofString target).names.length + (spare + 1)) ((p ++ [name]) :: active)
            (base p target) ((Path.ofString target).names ++ []) = .ok l := by
          refine ihfirst (fun l' name' r j' hmem hj' => ?_) (by omega) []
          rcases List.mem_cons.mp hmem with heq | hmem
          · obtain ⟨rfl, hnames⟩ := List.append_inj' heq rfl
            obtain rfl := List.singleton_inj.mp hnames
            have := (hself.unique hj').2
            omega
          · have := hactive l' name' r j' hmem hj'
            omega
        rwa [List.append_nil, Nat.add_comm spare, ← Nat.add_assoc, ← hspare] at happend
      have hrest : d.expand (rest.length + depth) active l (rest ++ back) = d.expand depth active q back := by
        refine ih (fun l' name' r j' hmem hj' => ?_) hdepth back
        have := hactive l' name' r j' hmem hj'
        omega
      rw [List.length_cons, Nat.add_right_comm, List.cons_append, expand, if_neg hname]
      simp only [hlink, if_neg hidle]
      rw [base] at hinner
      simp only [hinner, hrest]

/-- Along a walk the search finds the end of the walk. -/
theorem expand_of_leads {d : Disk} {p : Place} {names : List String} {q : Place} {k : Nat}
    (h : Leads d p names q k) {depth : Nat} {active : List Place}
    (hactive : ∀ m name r j, m ++ [name] ∈ active → Leads d m [name] r j → k < j)
    (hdepth : names.length + linkWeight active d.nodes < depth) : d.expand depth active p names = .ok q := by
  obtain ⟨spare, rfl⟩ := Nat.exists_eq_add_of_lt hdepth
  have happend : d.expand (names.length + (linkWeight active d.nodes + spare + 1)) active p (names ++ []) = .ok q :=
    expand_append h hactive (by omega) []
  rwa [List.append_nil, ← Nat.add_assoc, ← Nat.add_assoc] at happend

theorem placeOf_eq {d : Disk} {cwd : Place} {p : Path} {q : Place} {k : Nat}
    (h : Leads d (if p.isAbsolute then [] else cwd) p.names q k) : d.placeOf cwd p = q := by
  have hexpand : d.expand (d.depthBound p.names.length) [] (if p.isAbsolute then [] else cwd) p.names = .ok q := by
    refine expand_of_leads h (fun _ _ _ _ hmem => absurd hmem List.not_mem_nil) ?_
    rw [depthBound_eq]
    omega
  simp only [placeOf, hexpand]

/-- Nothing on the way to the place, itself included, is a link. -/
def Solid (d : Disk) (p : Place) : Prop :=
  ∀ front, front <+: p → ∀ t, d.find? front ≠ some (.link t)

theorem solid_nil (d : Disk) : d.Solid [] := by
  intro front hfront t h
  rw [List.prefix_nil.mp hfront, find?, if_pos rfl] at h
  cases h

theorem Solid.append {d : Disk} {p : Place} {name : String} (h : d.Solid p)
    (hname : ∀ t, d.find? (p ++ [name]) ≠ some (.link t)) : d.Solid (p ++ [name]) := by
  intro front hfront
  rcases List.prefix_concat_iff.mp hfront with rfl | hfront
  · exact hname
  · exact h front hfront

theorem Solid.of_prefix {d : Disk} {p q : Place} (h : d.Solid q) (hp : p <+: q) : d.Solid p :=
  fun front hfront => h front (hfront.trans hp)

/-- A walk from a place that no link is on the way to ends at such a place. -/
theorem Leads.solid {d : Disk} {p q : Place} {names : List String} {k : Nat} (h : Leads d p names q k)
    (hp : d.Solid p) : d.Solid q := by
  induction h with
  | done p => exact hp
  | up h ih => exact ih (hp.of_prefix (List.dropLast_prefix _))
  | enter _ hlink h ih => exact ih (hp.append hlink)
  | @via p m q name target rest j k hname hlink hfirst h ihfirst ih =>
      refine ih (ihfirst ?_)
      rw [base]
      split_ifs
      · exact solid_nil d
      · exact hp

/-- Without links the names lead where they say. -/
theorem leads_of_solid {d : Disk} (p : Place) {names : List String} (h : d.Solid (p ++ names))
    (hup : ∀ n ∈ names, n ≠ "..") : Leads d p names (p ++ names) 0 := by
  induction names generalizing p with
  | nil =>
      rw [List.append_nil]
      exact .done p
  | cons name names ih =>
      have hassoc : p ++ name :: names = p ++ [name] ++ names := by simp
      rw [hassoc] at h ⊢
      refine .enter (hup name List.mem_cons_self) (h _ (List.prefix_append _ _)) ?_
      exact ih (p ++ [name]) h fun n hn => hup n (List.mem_cons_of_mem _ hn)

theorem placeOf_ofPlace {d : Disk} {cwd q : Place} (h : d.Solid q) (hup : ∀ n ∈ q, n ≠ "..") :
    d.placeOf cwd (Path.ofPlace q) = q :=
  placeOf_eq (leads_of_solid [] h hup)

theorem Named.isEntry {d : Disk} (h : d.Named) {q : Place} {n : Node} (hq : d.find? q = some n) :
    ∀ name ∈ q, Path.IsEntry name := by
  by_cases hempty : q = []
  · rw [hempty]
    exact List.forall_mem_nil _
  · exact h (q, n) (mem_nodes_of_find? hempty hq)

/-- What is read lies where the look-up ends. -/
theorem look_of_read {d : Disk} {cwd : Place} {p : Path} {data : Octets} (h : d.read cwd p = .ok data) :
    ∃ q, d.look cwd true p = .ok (.present q (.file data)) := by
  unfold read stat at h
  cases hl : d.look cwd true p with
  | error t => simp [hl] at h
  | ok found =>
      cases found with
      | absent q => simp [hl] at h
      | present q n =>
          rw [hl] at h
          cases n with
          | file content =>
              cases h
              exact ⟨q, rfl⟩
          | _ => cases h

theorem leads_of_look {d : Disk} {cwd : Place} {p : Path} {q : Place} {n : Node}
    (h : d.look cwd true p = .ok (.present q n)) :
    d.find? q = some n ∧ ∃ k, Leads d (if p.isAbsolute then [] else cwd) p.names q k := by
  rw [look] at h
  by_cases hlong : pathLimit ≤ Text.Utf8.size p.render
  · rw [if_pos hlong] at h
    cases h
  · rw [if_neg hlong] at h
    exact leads_of_follow h

theorem leads_of_read {d : Disk} {cwd : Place} {p : Path} {data : Octets} (h : d.read cwd p = .ok data) :
    ∃ q k, d.find? q = some (.file data) ∧ Leads d (if p.isAbsolute then [] else cwd) p.names q k := by
  obtain ⟨q, hlook⟩ := look_of_read h
  obtain ⟨hfind, k, hk⟩ := leads_of_look hlook
  exact ⟨q, k, hfind, hk⟩

/-- A walk starts where no link is on the way. -/
theorem solid_start {d : Disk} {cwd : Place} {p : Path} (hcwd : p.isAbsolute = true ∨ d.Solid cwd) :
    d.Solid (if p.isAbsolute then [] else cwd) := by
  rcases hcwd with habs | hcwd
  · rw [if_pos habs]
    exact solid_nil d
  · split_ifs
    · exact solid_nil d
    · exact hcwd

/-- Where a file is found, that place is the true place of the path. -/
theorem placeOf_of_read {d : Disk} {cwd : Place} {p : Path} {data : Octets}
    (hcwd : p.isAbsolute = true ∨ d.Solid cwd) (h : d.read cwd p = .ok data) :
    d.find? (d.placeOf cwd p) = some (.file data) ∧ d.Solid (d.placeOf cwd p) := by
  obtain ⟨q, k, hfind, hk⟩ := leads_of_read h
  rw [placeOf_eq hk]
  exact ⟨hfind, hk.solid (solid_start hcwd)⟩

/-- The search goes along parts that carry a meaning. -/
theorem expand_isName {d : Disk} {depth : Nat} {active : List Place} {p : Place} {names : List String}
    (hp : ∀ n ∈ p, Path.IsName n) (hnames : ∀ n ∈ names, Path.IsName n) :
    (∀ q, d.expand depth active p names = .ok q → ∀ n ∈ q, Path.IsName n) ∧
      ∀ ns, d.expand depth active p names = .error ns → ∀ n ∈ ns, Path.IsName n := by
  induction depth generalizing active p names with
  | zero =>
      refine ⟨nofun, fun ns h n hn => ?_⟩
      cases h
      exact (List.mem_append.mp hn).elim (hp n) (hnames n)
  | succ depth ih =>
      cases names with
      | nil =>
          refine ⟨fun q h => ?_, nofun⟩
          cases h
          exact hp
      | cons name rest =>
          obtain ⟨hname, hrest⟩ := List.forall_mem_cons.mp hnames
          have hchild : ∀ n ∈ p ++ [name], Path.IsName n := by
            intro n hn
            rcases List.mem_append.mp hn with hn | hn
            · exact hp n hn
            · rw [List.mem_singleton.mp hn]
              exact hname
          rw [expand]
          by_cases hup : name = ".."
          · rw [if_pos hup]
            exact ih (fun n hn => hp n (List.mem_of_mem_dropLast hn)) hrest
          rw [if_neg hup]
          dsimp only
          split
          · rename_i target _
            by_cases hactive : p ++ [name] ∈ active
            · rw [if_pos hactive]
              refine ⟨nofun, fun ns h n hn => ?_⟩
              cases h
              exact (List.mem_append.mp hn).elim (hchild n) (hrest n)
            rw [if_neg hactive]
            have hbase : ∀ n ∈ (if (Path.ofString target).isAbsolute then [] else p), Path.IsName n := by
              split_ifs
              · exact List.forall_mem_nil _
              · exact hp
            have htarget : ∀ n ∈ (Path.ofString target).names, Path.IsName n :=
              fun n hn => Path.isName_of_mem_ofString hn
            split
            · rename_i q hq
              exact ih ((ih hbase htarget).1 q hq) hrest
            · rename_i ns hns
              refine ⟨nofun, fun ms h n hn => ?_⟩
              cases h
              exact (List.mem_append.mp hn).elim ((ih hbase htarget).2 ns hns n) (hrest n)
          · exact ih hchild hrest

theorem isName_of_mem_placeOf {d : Disk} {cwd : Place} {p : Path} (hcwd : ∀ n ∈ cwd, Path.IsName n)
    (hp : ∀ n ∈ p.names, Path.IsName n) : ∀ n ∈ d.placeOf cwd p, Path.IsName n := by
  have hstart : ∀ n ∈ (if p.isAbsolute then [] else cwd), Path.IsName n := by
    split_ifs
    · exact List.forall_mem_nil _
    · exact hcwd
  rw [placeOf]
  split
  · rename_i q hq
    exact (expand_isName hstart hp).1 q hq
  · rename_i ns hns
    exact fun n hn => (expand_isName hstart hp).2 ns hns n (Path.mem_of_mem_normalize hn)

/-! ### Writing and reading back -/

theorem find?_put (d : Disk) {q : Place} (n : Node) (hq : q ≠ []) (p : Place) :
    (d.put q n).find? p = if p = q then some n else d.find? p := by
  by_cases hp : p = []
  · have hne : p ≠ q := fun heq => hq (heq.symm.trans hp)
    rw [find?, find?, if_pos hp, if_pos hp, if_neg hne]
  rw [find?, find?, if_neg hp, if_neg hp, put]
  by_cases hany : (d.nodes.any fun e => decide (e.1 = q)) = true
  · rw [if_pos hany, List.find?_map]
    have hkey : ((fun e : Place × Node => decide (e.1 = p)) ∘ fun e => if e.1 = q then (q, n) else e) =
        fun e => decide (e.1 = p) := by
      funext e
      by_cases he : e.1 = q <;> simp [he]
    rw [hkey]
    cases hfind : d.nodes.find? fun e => decide (e.1 = p) with
    | none =>
        have hne : p ≠ q := by
          rintro rfl
          obtain ⟨e, he, heq⟩ := List.any_eq_true.mp hany
          exact absurd heq (List.find?_eq_none.mp hfind e he)
        rw [if_neg hne]
        rfl
    | some e =>
        have he : e.1 = p := by simpa using List.find?_some hfind
        by_cases hpq : p = q <;> simp [he, hpq]
  · rw [if_neg hany, List.find?_append]
    have hnone : (d.nodes.find? fun e => decide (e.1 = q)) = none :=
      List.find?_eq_none.mpr fun e he heq => hany (List.any_eq_true.mpr ⟨e, he, heq⟩)
    by_cases hpq : p = q
    · rw [hpq, hnone]
      simp
    · have hne : ¬ q = p := fun heq => hpq heq.symm
      simp [hpq, hne]

/-- The look-up ended where a file can be written. -/
def Found.Takes (q : Place) : Found → Prop
  | .present p (.file _) => p = q
  | .present _ _ => False
  | .absent p => p = q

/-- The place is free or holds a file. -/
def Room (d : Disk) (q : Place) : Prop :=
  q ≠ [] ∧ ∀ n, d.find? q = some n → ∃ c, n = .file c

theorem room_of_follow {d : Disk} {links : Nat} {p : Place} {names : List String} {q : Place} {r : Found}
    (h : d.follow true links p names = .ok r) (hr : r.Takes q) : d.Room q := by
  fun_induction follow d true links p names with
  | case1 links p n hp =>
      cases h
      cases n with
      | file c =>
          obtain rfl : p = q := hr
          refine ⟨?_, fun n hn => ⟨c, Option.some.inj (hn.symm.trans hp)⟩⟩
          rintro rfl
          rw [find?, if_pos rfl] at hp
          cases hp
      | _ => exact hr.elim
  | case6 links p rest hp ih => exact ih h
  | case8 links p name hp hname hsize child hchild =>
      cases h
      obtain rfl : child = q := hr
      refine ⟨by simp [child], fun n hn => ?_⟩
      rw [hchild] at hn
      cases hn
  | case10 links p name rest hp hname hsize child target hchild hlast => exact absurd hlast.2 (by decide)
  | case12 p name rest hp hname hsize child target hchild hlast links t ih => exact ih h
  | case13 links p name rest hp hname hsize child n hn hchild ih => exact ih h
  | _ => cases h

theorem follow_enter {d : Disk} {last : Bool} {links : Nat} {p : Place} {name : String} {rest : List String}
    {n : Node} (hp : d.find? p = some .directory) (hname : name ≠ "..") (hsize : ¬ nameLimit < Text.Utf8.size name)
    (hchild : d.find? (p ++ [name]) = some n) (hn : ∀ t, n ≠ .link t) :
    d.follow last links p (name :: rest) = d.follow last links (p ++ [name]) rest := by
  rw [follow, hp]
  simp only [if_neg hname, if_neg hsize, hchild]

theorem follow_via {d : Disk} {links : Nat} {p : Place} {name target : String} {rest : List String}
    (hp : d.find? p = some .directory) (hname : name ≠ "..") (hsize : ¬ nameLimit < Text.Utf8.size name)
    (hchild : d.find? (p ++ [name]) = some (.link target)) :
    d.follow true (links + 1) p (name :: rest) =
      d.follow true links (base p target) ((Path.ofString target).names ++ rest) := by
  have hlast : ¬ (rest = [] ∧ (!true) = true) := fun h => absurd h.2 (by decide)
  rw [follow, hp]
  simp only [if_neg hname, if_neg hsize, hchild, if_neg hlast]
  rfl

/-- A look-up that ends where a file can be written ends at this file when it is written. -/
theorem follow_put {d : Disk} {links : Nat} {p : Place} {names : List String} {q : Place} {r : Found}
    (c : Octets) (h : d.follow true links p names = .ok r) (hr : r.Takes q) :
    (d.put q (.file c)).follow true links p names = .ok (.present q (.file c)) := by
  obtain ⟨hempty, hroom⟩ := room_of_follow h hr
  have hq : (d.put q (.file c)).find? q = some (.file c) := by rw [find?_put d _ hempty, if_pos rfl]
  -- Directories and links on the way are not the place that is written.
  have hother (m : Place) (n : Node) (hm : d.find? m = some n) (hn : ∀ c, n ≠ .file c) :
      (d.put q (.file c)).find? m = some n := by
    rw [find?_put d _ hempty, if_neg, hm]
    rintro rfl
    obtain ⟨c, hc⟩ := hroom n hm
    exact hn c hc
  fun_induction follow d true links p names with
  | case1 links p n hp =>
      cases h
      cases n with
      | file c =>
          obtain rfl : p = q := hr
          rw [follow, hq]
      | _ => exact hr.elim
  | case6 links p rest hp ih =>
      rw [follow, hother p .directory hp nofun]
      exact ih h
  | case8 links p name hp hname hsize child hchild =>
      cases h
      obtain rfl : child = q := hr
      rw [follow_enter (hother p .directory hp nofun) hname hsize hq nofun, follow]
      simp only [show p ++ [name] = child from rfl, hq]
  | case10 links p name rest hp hname hsize child target hchild hlast => exact absurd hlast.2 (by decide)
  | case12 p name rest hp hname hsize child target hchild hlast links t ih =>
      rw [follow_via (hother p .directory hp nofun) hname hsize (hother child _ hchild nofun)]
      exact ih h
  | case13 links p name rest hp hname hsize child n hn hchild ih =>
      have hchild' : ∃ n', (d.put q (.file c)).find? child = some n' ∧ ∀ t, n' ≠ .link t := by
        by_cases heq : child = q
        · exact ⟨.file c, by rw [heq, hq], nofun⟩
        · exact ⟨n, by rw [find?_put d _ hempty, if_neg heq, hchild], fun t ht => hn t ht⟩
      obtain ⟨n', hn', hnot⟩ := hchild'
      rw [follow_enter (hother p .directory hp nofun) hname hsize hn' hnot]
      exact ih h
  | _ => cases h

/-- A write puts the file at the place where the path leads from then on. -/
theorem exists_put_of_write {d d' : Disk} {cwd : Place} {p : Path} {c : Octets} (h : d.write cwd p c = .ok d') :
    ∃ q, d' = d.put q (.file c) ∧ d'.look cwd true p = .ok (.present q (.file c)) := by
  obtain ⟨q, r, hlook, hr, rfl⟩ : ∃ q r, d.look cwd true p = .ok r ∧ r.Takes q ∧ d' = d.put q (.file c) := by
    unfold write at h
    cases hl : d.look cwd true p with
    | error t => rw [hl] at h; cases h
    | ok r =>
        rw [hl] at h
        cases r with
        | absent q => cases h; exact ⟨q, _, rfl, rfl, rfl⟩
        | present q n =>
            cases n with
            | file old => cases h; exact ⟨q, _, rfl, rfl, rfl⟩
            | _ => cases h
  refine ⟨q, rfl, ?_⟩
  by_cases hlong : pathLimit ≤ Text.Utf8.size p.render
  · rw [look, if_pos hlong] at hlook
    cases hlook
  rw [look, if_neg hlong] at hlook ⊢
  exact follow_put c hlook hr

/-- What is written into a file is read from it. -/
theorem read_of_write {d d' : Disk} {cwd : Place} {p : Path} {c : Octets} (h : d.write cwd p c = .ok d') :
    d'.read cwd p = .ok c := by
  obtain ⟨q, -, hlook⟩ := exists_put_of_write h
  rw [read, stat, hlook]

theorem put_put (d : Disk) (q : Place) (n : Node) : (d.put q n).put q n = d.put q n := by
  have hmem : ((d.put q n).nodes.any fun e => decide (e.1 = q)) = true := by
    unfold put
    split_ifs with hany
    · obtain ⟨e, he, heq⟩ := List.any_eq_true.mp hany
      exact List.any_eq_true.mpr ⟨(q, n), List.mem_map.mpr ⟨e, he, if_pos (of_decide_eq_true heq)⟩, by simp⟩
    · simp
  have hall : ∀ e ∈ (d.put q n).nodes, (if e.1 = q then (q, n) else e) = e := by
    intro e he
    unfold put at he
    split_ifs at he with hany
    · obtain ⟨e', -, rfl⟩ := List.mem_map.mp he
      by_cases heq : e'.1 = q <;> simp [heq]
    · rcases List.mem_append.mp he with he | he
      · exact if_neg fun heq => hany (List.any_eq_true.mpr ⟨e, he, decide_eq_true heq⟩)
      · rw [List.mem_singleton.mp he, if_pos rfl]
  conv_lhs => rw [put, if_pos hmem]
  exact congrArg Disk.mk ((List.map_congr_left hall).trans (List.map_id' _))

/-- What is written again leaves the disk as it is. -/
theorem write_of_write {d d' : Disk} {cwd : Place} {p : Path} {c : Octets} (h : d.write cwd p c = .ok d') :
    d'.write cwd p c = .ok d' := by
  obtain ⟨q, rfl, hlook⟩ := exists_put_of_write h
  rw [write, hlook]
  exact congrArg Except.ok (put_put d q _)

end Disk

namespace Vantage

variable {v : Vantage} {p k : Path} {data : Octets}

theorem resolve_eq_ok_iff :
    v.resolve p = .ok k ↔ p.names.any Path.holdsNul = false ∧
      v.disk.stat v.cwd (Path.ofPlace (v.disk.placeOf v.cwd p)) ≠ .error .tooManyLinks ∧
      Path.ofPlace (v.disk.placeOf v.cwd p) = k := by
  unfold resolve Disk.resolve
  by_cases hnul : p.names.any Path.holdsNul = true
  · simp only [hnul, if_true, Bool.true_eq_false, false_and, reduceCtorEq]
  · rw [if_neg hnul]
    rw [Bool.not_eq_true] at hnul
    dsimp only
    by_cases hloop : v.disk.stat v.cwd (Path.ofPlace (v.disk.placeOf v.cwd p)) = .error .tooManyLinks
    · simp only [hloop, reduceCtorEq, not_true_eq_false, false_and, and_false, ne_eq]
    · simp only [hnul, hloop, Except.ok.injEq, ne_eq, not_false_eq_true, true_and]

theorem read_eq_ok_iff :
    v.read p = .ok data ↔ p.names.any Path.holdsNul = false ∧ v.disk.read v.cwd p = .ok data := by
  unfold read
  by_cases hnul : p.names.any Path.holdsNul = true
  · simp only [hnul, if_true, Bool.true_eq_false, false_and, reduceCtorEq]
  · rw [if_neg hnul, Bool.eq_false_of_not_eq_true hnul]
    cases v.disk.read v.cwd p <;> simp

theorem read_eq_ok (h : v.read p = .ok data) : v.disk.read v.cwd p = .ok data :=
  (read_eq_ok_iff.mp h).2

theorem write_eq_ok_iff {d : Disk} :
    v.write p data = .ok d ↔ p.names.any Path.holdsNul = false ∧ v.disk.write v.cwd p data = .ok d := by
  unfold write
  by_cases hnul : p.names.any Path.holdsNul = true
  · simp only [hnul, if_true, Bool.true_eq_false, false_and, reduceCtorEq]
  · rw [if_neg hnul, Bool.eq_false_of_not_eq_true hnul]
    cases v.disk.write v.cwd p data <;> simp

theorem isName_of_resolve (hcwd : ∀ n ∈ v.cwd, Path.IsName n) (hp : ∀ n ∈ p.names, Path.IsName n)
    (h : v.resolve p = .ok k) : ∀ n ∈ k.names, Path.IsName n := by
  obtain ⟨-, -, rfl⟩ := resolve_eq_ok_iff.mp h
  exact Disk.isName_of_mem_placeOf hcwd hp

theorem read_of_write {d : Disk} (h : v.write p data = .ok d) : Vantage.read ⟨d, v.cwd⟩ p = .ok data := by
  obtain ⟨hnul, hwrite⟩ := write_eq_ok_iff.mp h
  exact read_eq_ok_iff.mpr ⟨hnul, Disk.read_of_write hwrite⟩

theorem write_of_write {d : Disk} (h : v.write p data = .ok d) : Vantage.write ⟨d, v.cwd⟩ p data = .ok d := by
  obtain ⟨hnul, hwrite⟩ := write_eq_ok_iff.mp h
  exact write_eq_ok_iff.mpr ⟨hnul, Disk.write_of_write hwrite⟩

/-- The true path of a file that can be read is its own true path. -/
theorem resolve_idem (hnamed : v.disk.Named) (hcwd : p.isAbsolute = true ∨ v.disk.Solid v.cwd)
    (hread : v.read p = .ok data) (hk : v.resolve p = .ok k) :
    (k.anchor = .root ∧ ∀ n ∈ k.names, Path.IsEntry n) ∧ v.resolve k = .ok k := by
  obtain ⟨-, hstat, rfl⟩ := resolve_eq_ok_iff.mp hk
  obtain ⟨hfind, hsolid⟩ := Disk.placeOf_of_read hcwd (read_eq_ok hread)
  have hentry := hnamed.isEntry hfind
  refine ⟨⟨rfl, hentry⟩, ?_⟩
  have hnul : (Path.ofPlace (v.disk.placeOf v.cwd p)).names.any Path.holdsNul = false :=
    List.any_eq_false.mpr fun n hn => by simp [(hentry n hn).noNul]
  have hplace : v.disk.placeOf v.cwd (Path.ofPlace (v.disk.placeOf v.cwd p)) = v.disk.placeOf v.cwd p :=
    Disk.placeOf_ofPlace hsolid fun n hn => (hentry n hn).notUp
  exact resolve_eq_ok_iff.mpr ⟨hnul, by rwa [hplace], by rw [hplace]⟩

end Vantage

end Namesake
