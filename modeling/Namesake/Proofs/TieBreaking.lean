import Namesake.Proofs.Tables

/-! Which rule decides where several could. Of rules with equally deep directories the one that is declared first gives
the better name. So one more directory in the second table of a manifest takes no path away from a rule of the first
table whose directory is deeper, or as deep and declared for a namespace that does not come later. -/

namespace Namesake

/-- The first element that gives anything gives the first value. -/
theorem IsFirst.head?_filterMap {α β : Type} {R : α → α → Prop} {l : List α} {f : α → Option β} {a : α}
    (hR : ∀ a b, R a b → ¬ R b a) (hl : l.Pairwise R) (h : IsFirst R l (fun a => (f a).map fun _ => ()) () a) :
    (l.filterMap f).head? = f a := by
  induction l with
  | nil => cases h.mem
  | cons c l ih =>
      obtain ⟨hc, hl⟩ := List.pairwise_cons.mp hl
      cases hgives : f c with
      | none =>
          have hne : (f c).map (fun _ => ()) ≠ some () := by
            rw [hgives]
            nofun
          rw [List.filterMap_cons_none hgives, ih hl (h.tail hne)]
      | some z =>
          rw [List.filterMap_cons_some hgives, List.head?_cons]
          rcases h.first c List.mem_cons_self (by rw [hgives]; rfl) with rfl | hac
          · exact hgives.symm
          · rcases List.mem_cons.mp h.mem with rfl | hmem
            · exact hgives.symm
            · exact absurd hac (hR c a (hc a hmem))

namespace Rule

variable {rules front back : List Rule} {p : Place} {a b e : Rule × Nat} {n : Rule} {c d : ClassName}

theorem Outranks.trans (hab : Outranks a b) (hbe : Outranks b e) : Outranks a e := by
  unfold Outranks at *
  omega

/-- Of the rules that derive a class for the place, the best one. -/
def Leads (rules : List Rule) (p : Place) : Rule × Nat → Prop :=
  IsFirst Outranks rules.zipIdx (fun e => (Resolver.Rule.apply e.1 p).map fun _ => ()) ()

theorem gives_iff : (Resolver.Rule.apply n p).map (fun _ => ()) = some () ↔ ∃ c, n.Derives p c := by
  rw [Option.map_eq_some_iff]
  simp only [and_true, Resolver.Rule.apply_eq_some_iff]

theorem exists_leads (ha : a ∈ rules.zipIdx) (hc : a.1.Derives p c) : ∃ b, Leads rules p b := by
  obtain ⟨l, hperm, hl, -⟩ := Resolver.exists_ranked rules
  have hmem : () ∈ l.filterMap fun e => (Resolver.Rule.apply e.1 p).map fun _ => () :=
    List.mem_filterMap.mpr ⟨a, hperm.mem_iff.mpr ha, gives_iff.mpr ⟨c, hc⟩⟩
  obtain ⟨b, hb⟩ := IsFirst.exists_of_mem hl hmem
  exact ⟨b, hperm.mem_iff.mp hb.mem, hb.gives, fun e he => hb.first e (hperm.mem_iff.mpr he)⟩

/-- The best rule gives the best name. -/
theorem Leads.head?_derived (h : Leads rules p a) : (Resolver.derived rules p).head? = Resolver.Rule.apply a.1 p := by
  obtain ⟨l, hperm, hl, hranked⟩ := Resolver.exists_ranked rules
  have hfirst : IsFirst Outranks l (fun e => (Resolver.Rule.apply e.1 p).map fun _ => ()) () a :=
    ⟨hperm.mem_iff.mpr h.mem, h.gives, fun b hb => h.first b (hperm.mem_iff.mp hb)⟩
  have hhead : ∀ names : List ClassName, names.eraseDups.head? = names.head?
    | [] => rfl
    | c :: names => by rw [List.eraseDups_cons, List.head?_cons, List.head?_cons]
  rw [Resolver.derived, hranked, List.filterMap_map, hhead]
  exact hfirst.head?_filterMap (fun _ _ h => h.asymm) hl

/-- The number of a rule after one more rule at the place `k`. -/
def shift (k : Nat) (e : Rule × Nat) : Rule × Nat :=
  (e.1, if e.2 < k then e.2 else e.2 + 1)

theorem Outranks.shift {k : Nat} (h : Outranks a b) : Outranks (shift k a) (shift k b) := by
  unfold Outranks Rule.shift at *
  dsimp only
  split_ifs <;> omega

theorem Outranks.shift_left {k : Nat} (h : Outranks a (n, k)) : Outranks (Rule.shift k a) (n, k) := by
  unfold Outranks Rule.shift at *
  dsimp only at *
  split_ifs <;> omega

theorem mem_zipIdx_insert :
    e ∈ (front ++ n :: back).zipIdx ↔
      e = (n, front.length) ∨ ∃ b ∈ (front ++ back).zipIdx, e = shift front.length b := by
  obtain ⟨r, i⟩ := e
  rw [List.mem_zipIdx_iff_getElem?]
  constructor
  · intro h
    rcases lt_trichotomy i front.length with hlt | rfl | hgt
    · rw [List.getElem?_append_left hlt] at h
      refine .inr ⟨(r, i), ?_, by simp [shift, hlt]⟩
      rwa [List.mem_zipIdx_iff_getElem?, List.getElem?_append_left hlt]
    · rw [List.getElem?_append_right le_rfl, Nat.sub_self, List.getElem?_cons_zero] at h
      exact .inl (by rw [Option.some.inj h])
    · obtain ⟨j, rfl⟩ : ∃ j, i = front.length + j + 1 := ⟨i - front.length - 1, by omega⟩
      rw [List.getElem?_append_right (by omega), show front.length + j + 1 - front.length = j + 1 by omega,
        List.getElem?_cons_succ] at h
      refine .inr ⟨(r, front.length + j), ?_, by simp [shift]⟩
      rwa [List.mem_zipIdx_iff_getElem?, List.getElem?_append_right (by omega), Nat.add_sub_cancel_left]
  · rintro (heq | ⟨⟨r, i⟩, hmem, heq⟩)
    · cases heq
      rw [List.getElem?_append_right le_rfl, Nat.sub_self, List.getElem?_cons_zero]
    · rw [List.mem_zipIdx_iff_getElem?] at hmem
      cases heq
      dsimp only
      split_ifs with hlt
      · rw [List.getElem?_append_left hlt] at hmem
        rwa [List.getElem?_append_left hlt]
      · rw [List.getElem?_append_right (by omega)] at hmem
        rwa [List.getElem?_append_right (by omega), Nat.sub_add_comm (by omega), List.getElem?_cons_succ]

/-- A rule that leads goes on leading, if the new one does not outrank it. -/
theorem Leads.insert (h : Leads (front ++ back) p a) (hn : Outranks a (n, front.length)) :
    Leads (front ++ n :: back) p (shift front.length a) := by
  refine ⟨mem_zipIdx_insert.mpr (.inr ⟨a, h.mem, rfl⟩), h.gives, fun b hb hgives => ?_⟩
  rcases mem_zipIdx_insert.mp hb with rfl | ⟨b, hmem, rfl⟩
  · exact .inr hn.shift_left
  · exact (h.first b hmem hgives).imp (congrArg _) Outranks.shift

/-- One more rule does not change the best name of a place, if it is outranked by a rule that derives a name. -/
theorem head?_derived_insert (ha : a ∈ (front ++ back).zipIdx) (hc : a.1.Derives p c)
    (hn : Outranks a (n, front.length)) :
    (Resolver.derived (front ++ n :: back) p).head? = (Resolver.derived (front ++ back) p).head? := by
  obtain ⟨b, hb⟩ := exists_leads ha hc
  have hout : Outranks b (n, front.length) := by
    rcases hb.first a ha (gives_iff.mpr ⟨c, hc⟩) with rfl | hba
    · exact hn
    · exact hba.trans hn
  rw [(hb.insert hout).head?_derived, hb.head?_derived]
  rfl

/-- Of two names, the one of the rule that outranks all rules of the other name stands first. -/
theorem sublist_derived (ha : a ∈ rules.zipIdx) (hb : b ∈ rules.zipIdx) (hc : a.1.Derives p c) (hd : b.1.Derives p d)
    (hne : c ≠ d) (hfirst : ∀ e ∈ rules.zipIdx, e.1.Derives p d → ¬ Outranks e a) :
    [c, d].Sublist (Resolver.derived rules p) := by
  obtain ⟨-, hmem, hbest, hpair⟩ := Resolver.derived_ranked rules p
  have hc' := (hmem c).mpr ⟨a.1, List.fst_mem_of_mem_zipIdx ha, hc⟩
  have hd' := (hmem d).mpr ⟨b.1, List.fst_mem_of_mem_zipIdx hb, hd⟩
  obtain ⟨s, t, hst⟩ := List.append_of_mem hc'
  rw [hst] at hd' hpair ⊢
  rcases List.mem_append.mp hd' with hs | ht
  · -- The best rule of `d` would outrank the one of `c`, and with it `a`.
    obtain ⟨x, hx, -⟩ := hbest d (hst ▸ hd')
    obtain ⟨y, hy, -⟩ := hbest c hc'
    have hxy := (List.pairwise_append.mp hpair).2.2 d hs c List.mem_cons_self x y hx hy
    have hxa : Outranks x a := by
      rcases hy.first a ha (Resolver.Rule.apply_eq_some_iff.mpr hc) with rfl | hya
      · exact hxy
      · exact hxy.trans hya
    exact absurd hxa (hfirst x hx.mem (Resolver.Rule.apply_eq_some_iff.mp hx.gives))
  · have ht' := (List.mem_cons.mp ht).resolve_left hne.symm
    exact ((List.singleton_sublist.mpr ht').cons_cons c).trans (List.sublist_append_right s _)

end Rule

namespace Resolver

variable {v : Vantage} {root base : Path} {s : String} {auto dev : Mapping} {r : Resolver} {rules : List Rule}

theorem isRuleOf_unique {entry : String × String} {a b : Rule} (ha : IsRuleOf v base entry a)
    (hb : IsRuleOf v base entry b) : a = b :=
  Except.ok.inj (ha.symm.trans hb)

theorem candidates_of_resolve {w : Vantage} {path : String} {q : Path} {rules : List Rule}
    (h : w.resolve (base.join (Path.ofString path)) = .ok q) :
    (autoload base rules).candidates w path = .ok (derived rules q.names) := by
  rw [candidates, h]
  rfl

theorem best_of_head {w : Vantage} {path : String} {q : Path} {rules rules' : List Rule}
    (h : w.resolve (base.join (Path.ofString path)) = .ok q)
    (hhead : (derived rules' q.names).head? = (derived rules q.names).head?) :
    (autoload base rules').best w path = (autoload base rules).best w path := by
  rw [best, best, candidates_of_resolve h, candidates_of_resolve h]
  cases hnames : derived rules q.names with
  | nil =>
      rw [hnames, List.head?_nil, List.head?_eq_none_iff] at hhead
      rw [hhead]
      rfl
  | cons c names =>
      rw [hnames, List.head?_cons, List.head?_eq_some_iff] at hhead
      obtain ⟨names', hnames'⟩ := hhead
      rw [hnames']
      rfl

/-- The rule of a directory has the number of its declaration. -/
theorem exists_mem_zipIdx {entries : List (String × String)} {rules : List Rule} {entry : String × String} {a : Rule}
    (hrules : List.Forall₂ (IsRuleOf v base) entries rules) (hentry : entry ∈ entries) (ha : IsRuleOf v base entry a) :
    ∃ i < entries.length, (a, i) ∈ rules.zipIdx := by
  obtain ⟨i, hi, rfl⟩ := List.mem_iff_getElem.mp hentry
  have hlength : i < rules.length := hrules.length_eq ▸ hi
  refine ⟨i, hi, ?_⟩
  rw [List.mem_zipIdx_iff_getElem?, List.getElem?_eq_getElem hlength]
  exact congrArg some (isRuleOf_unique ((List.forall₂_iff_get.mp hrules).2 i hi hlength) ha)

theorem forall₂_isRuleOf_of_resolve {v' : Vantage} {entries : List (String × String)} {rules : List Rule}
    (hsame : ∀ entry ∈ entries,
      v'.resolve (base.join (Path.ofString entry.2)) = v.resolve (base.join (Path.ofString entry.2)))
    (hrules : List.Forall₂ (IsRuleOf v base) entries rules) : List.Forall₂ (IsRuleOf v' base) entries rules := by
  refine ((List.forall₂_and_left _ _).mpr ⟨hsame, hrules⟩).imp ?_
  rintro entry a ⟨hresolve, ha⟩
  rw [IsRuleOf, rule] at ha ⊢
  rwa [hresolve]

theorem exists_rules {entries : List (String × String)}
    (h : ∀ entry ∈ entries, ∃ q, v.resolve (base.join (Path.ofString entry.2)) = .ok q) :
    ∃ rules, List.Forall₂ (IsRuleOf v base) entries rules := by
  refine exists_forall₂ fun entry hentry => ?_
  obtain ⟨q, hq⟩ := h entry hentry
  refine ⟨⟨bareSpace entry.1, q.names⟩, ?_⟩
  rw [IsRuleOf, rule, hq]
  rfl

/-- The second table with one more directory: the rules are the old ones and a new one, and the rules of the
namespaces of the first table up to the new one's stand before it. -/
theorem exists_insert {dev' : Mapping} {front back : List (String × String)} {space dir : String}
    {rules : List Rule} {n : Rule} (hauto : (auto.map Prod.fst).Nodup) (hdev : dev.entries = front ++ back)
    (hdev' : dev'.entries = front ++ (space, dir) :: back)
    (hrules : List.Forall₂ (IsRuleOf v base) (auto.declared dev) rules) (hn : IsRuleOf v base (space, dir) n) :
    ∃ pre post, rules = pre ++ post ∧ List.Forall₂ (IsRuleOf v base) (auto.declared dev') (pre ++ n :: post) ∧
      ∀ entry ∈ auto.entries, ∀ a, IsRuleOf v base entry a → ∃ i, (a, i) ∈ rules.zipIdx ∧
        (entry.1 ∈ auto.upTo space → i < pre.length) := by
  obtain ⟨before, after, hsplit, hsplit', hupto⟩ := Mapping.declared_insert hauto hdev hdev'
  rw [hsplit] at hrules
  have hpre := List.forall₂_take before.length hrules
  have hpost := List.forall₂_drop before.length hrules
  rw [List.take_left] at hpre
  rw [List.drop_left] at hpost
  have hlength := hpre.length_eq
  refine ⟨rules.take before.length, rules.drop before.length, (List.take_append_drop _ _).symm, ?_, ?_⟩
  · rw [hsplit']
    exact List.rel_append hpre (.cons hn hpost)
  · intro entry hentry a ha
    by_cases hin : entry.1 ∈ auto.upTo space
    · obtain ⟨i, hi, hmem⟩ := exists_mem_zipIdx hpre (hupto entry hentry hin) ha
      refine ⟨i, ?_, fun _ => hlength ▸ hi⟩
      rw [List.mem_zipIdx_iff_getElem?] at hmem ⊢
      rwa [List.getElem?_take_of_lt hi] at hmem
    · have hdeclared := Mapping.mem_declared dev hentry
      obtain ⟨i, -, hmem⟩ := exists_mem_zipIdx hrules (hsplit ▸ hdeclared) ha
      exact ⟨i, hmem, fun h => absurd h hin⟩

/-- Of two names that rules with the same directory derive for the place, the one of the rule that is declared first
stands first, unless a rule before that one derives the other name too. -/
def InOrder (rules : List Rule) (p : Place) (names : List ClassName) : Prop :=
  ∀ a ∈ rules.zipIdx, ∀ b ∈ rules.zipIdx, ∀ c d, a.1.directory = b.1.directory → a.2 < b.2 →
    a.1.Derives p c → b.1.Derives p d → c ≠ d →
    (∀ e ∈ rules.zipIdx, e.1.Derives p d → ¬ Rule.Outranks e a) → [c, d].Sublist names

/-- A new directory in the second table, where all directories are still looked up as before, changes the best name
of no path for which a rule of the first table derives a name, if the directory of that rule is deeper than the new
one, or as deep and declared for a namespace that does not come after the new one's. -/
def KeepsBest (v : Vantage) (root base : Path) (auto dev : Mapping) (rules : List Rule) : Prop :=
  ∀ (v' : Vantage) s' dev' front space dir back n, Declares v' root s' auto dev' →
    v'.resolve root = .ok base → (∀ entry ∈ auto.declared dev',
      v'.resolve (base.join (Path.ofString entry.2)) = v.resolve (base.join (Path.ofString entry.2))) →
    dev.entries = front ++ back → dev'.entries = front ++ (space, dir) :: back → IsRuleOf v base (space, dir) n →
    ∃ rules', (ofManifest v' root).outcome = .ok (.autoload base rules') ∧
      ∀ (w : Vantage) path q, w.resolve (base.join (Path.ofString path)) = .ok q →
        ∀ entry ∈ auto.entries, ∀ a c, IsRuleOf v base entry a → a.Derives q.names c →
        n.directory.length < a.directory.length ∨
          n.directory.length = a.directory.length ∧ entry.1 ∈ auto.upTo space →
        (autoload base rules').best w path = (autoload base rules).best w path

theorem keepsBest_of_declares (h : Declares v root s auto dev)
    (hrules : List.Forall₂ (IsRuleOf v base) (auto.declared dev) rules) : KeepsBest v root base auto dev rules := by
  intro v' s' dev' front space dir back n h' hroot' hsame hdev hdev' hn
  obtain ⟨pre, post, rfl, hrules', hplace⟩ := exists_insert h.nodup_names.1 hdev hdev' hrules hn
  have houtcome := h'.outcome_eq_ok_iff.mpr ⟨base, _, hroot', forall₂_isRuleOf_of_resolve hsame hrules', rfl⟩
  refine ⟨pre ++ n :: post, houtcome, ?_⟩
  intro w path q hq entry hentry a c ha hc hdepth
  obtain ⟨i, hmem, hupto⟩ := hplace entry hentry a ha
  have hout : Rule.Outranks (a, i) (n, pre.length) :=
    hdepth.imp id fun hequal => ⟨hequal.1.symm, hupto hequal.2⟩
  exact best_of_head hq (Rule.head?_derived_insert hmem hc hout)

/-- A directory of two namespaces, of which the first one has it in the second table. -/
def shared : String :=
  "\x7b\"autoload\": \x7b\"psr-4\": \x7b\"A\\\\\": \"src\", \"B\\\\\": [\"lib\"]\x7d\x7d, " ++
    "\"autoload-dev\": \x7b\"psr-4\": \x7b\"A\\\\\": \"lib\"\x7d\x7d\x7d"

/-- The same manifest without its second table. -/
def unshared : String :=
  "\x7b\"autoload\": \x7b\"psr-4\": \x7b\"A\\\\\": \"src\", \"B\\\\\": [\"lib\"]\x7d\x7d\x7d"

/-- The same manifest with one more namespace in its second table. -/
def grown : String :=
  "\x7b\"autoload\": \x7b\"psr-4\": \x7b\"A\\\\\": \"src\", \"B\\\\\": [\"lib\"]\x7d\x7d, " ++
    "\"autoload-dev\": \x7b\"psr-4\": \x7b\"A\\\\\": \"lib\", \"C\\\\\": \"lib\"\x7d\x7d\x7d"

/-- A name that two directories give, one of them inside the other. -/
def nested : String :=
  "\x7b\"autoload\": \x7b\"psr-4\": \x7b\"B\\\\S\\\\\": \"src/S\", \"A\\\\\": \"src\", \"B\\\\\": \"src\"\x7d\x7d\x7d"

def sharedTable : Mapping :=
  [("A\\", .one "src"), ("B\\", .several ["lib"])]

theorem tables_shared :
    (Json.parse shared).toOption.bind Mapping.tables? = some (sharedTable, [("A\\", .one "lib")]) := by
  decide +kernel

theorem tables_unshared : (Json.parse unshared).toOption.bind Mapping.tables? = some (sharedTable, []) := by
  decide +kernel

theorem tables_grown : (Json.parse grown).toOption.bind Mapping.tables? =
    some (sharedTable, [("A\\", .one "lib"), ("C\\", .one "lib")]) := by
  decide +kernel

theorem tables_nested : (Json.parse nested).toOption.bind Mapping.tables? =
    some ([("B\\S\\", .one "src/S"), ("A\\", .one "src"), ("B\\", .one "src")], []) := by
  decide +kernel

/-- The candidates for a path that is looked up on the disk of the manifest. -/
theorem candidates_alone {rules : List Rule} (path : String) {names : List ClassName}
    (hnul : Path.holdsNul path = false) (hsorted : rules.Pairwise fun a b => b.directory.length ≤ a.directory.length)
    (hnames : (rules.filterMap fun r => Rule.apply r (Path.spelled [] path)).eraseDups = names) :
    (autoload (Path.ofPlace []) rules).candidates (alone s) path = .ok names := by
  rw [candidates_of_resolve (resolve_alone s hnul), derived, ranked, List.mergeSort_of_pairwise]
  · exact congrArg _ hnames
  · exact hsorted.imp fun h => decide_eq_true h

/-- The rules of a manifest whose directories can all be looked up are those of its tables as they are declared: the
text is a document, and in each table a namespace stands at its first place with its last value. Where two of them have
the same directory, the candidates stand in this order; and a new directory in the second table keeps the best names
that the first table gives, except for paths of namespaces that are declared later. -/
theorem candidates_declared (h : Declares v root s auto dev) (hroot : v.resolve root = .ok base)
    (hdirs : ∀ entry ∈ auto.declared dev, ∃ q, v.resolve (base.join (Path.ofString entry.2)) = .ok q) :
    (∃ d, Json.Spelled s d ∧ auto.IsSaidBy (d.table "autoload") ∧ dev.IsSaidBy (d.table "autoload-dev")) ∧
    ∃ rules, (ofManifest v root).outcome = .ok (.autoload base rules) ∧
      List.Forall₂ (IsRuleOf v base) (auto.declared dev) rules ∧
      (∀ (w : Vantage) path q, w.resolve (base.join (Path.ofString path)) = .ok q →
        ∃ names, (autoload base rules).candidates w path = .ok names ∧ InOrder rules q.names names) ∧
      KeepsBest v root base auto dev rules := by
  refine ⟨h.exists_document, ?_⟩
  obtain ⟨rules, hrules⟩ := exists_rules hdirs
  refine ⟨rules, h.outcome_eq_ok_iff.mpr ⟨base, rules, hroot, hrules, rfl⟩, hrules, fun w path q hq => ?_,
    keepsBest_of_declares h hrules⟩
  refine ⟨_, candidates_of_resolve hq, fun a ha b hb c d _ _ hc hd hne hfirst => ?_⟩
  exact Rule.sublist_derived ha hb hc hd hne hfirst

/-- A manifest with a directory of two namespaces, and the same with a third one. -/
theorem candidates_declared_shared :
    let v := alone shared
    let base := Path.ofPlace []
    let dev : Mapping := [("A\\", .one "lib")]
    (Declares v base shared sharedTable dev ∧ v.resolve base = .ok base ∧
      ∀ entry ∈ sharedTable.declared dev, ∃ q, v.resolve (base.join (Path.ofString entry.2)) = .ok q) ∧
    ((∃ d, Json.Spelled shared d ∧ sharedTable.IsSaidBy (d.table "autoload") ∧
        dev.IsSaidBy (d.table "autoload-dev")) ∧
      ∃ rules, (ofManifest v base).outcome = .ok (.autoload base rules) ∧
        List.Forall₂ (IsRuleOf v base) (sharedTable.declared dev) rules ∧
        (∀ (w : Vantage) path q, w.resolve (base.join (Path.ofString path)) = .ok q →
          ∃ names, (autoload base rules).candidates w path = .ok names ∧ InOrder rules q.names names) ∧
        KeepsBest v base base sharedTable dev rules) ∧
    let more : Mapping := [("A\\", .one "lib"), ("C\\", .one "lib")]
    Declares (alone grown) base grown sharedTable more ∧ (alone grown).resolve base = .ok base ∧
      (∀ entry ∈ sharedTable.declared more,
        (alone grown).resolve (base.join (Path.ofString entry.2)) = v.resolve (base.join (Path.ofString entry.2))) ∧
      more.entries = dev.entries ++ [("C\\", "lib")] ∧ IsRuleOf v base ("C\\", "lib") ⟨"C", ["lib"]⟩ := by
  intro v base dev
  have hnul : ∀ entry ∈ sharedTable.declared dev, Path.holdsNul entry.2 = false := by decide
  have hdirs : ∀ entry ∈ sharedTable.declared dev, ∃ q, v.resolve (base.join (Path.ofString entry.2)) = .ok q :=
    fun entry hentry => ⟨_, resolve_alone shared (hnul entry hentry)⟩
  have hroot : v.resolve base = .ok base := Vantage.resolve_root _ _
  have hdeclares := declares_alone tables_shared
  refine ⟨⟨hdeclares, hroot, hdirs⟩, candidates_declared hdeclares hroot hdirs, ?_⟩
  intro more
  have hnul' : ∀ entry ∈ sharedTable.declared more, Path.holdsNul entry.2 = false := by decide
  refine ⟨declares_alone tables_grown, Vantage.resolve_root _ _, fun entry hentry => ?_, rfl, ?_⟩
  · rw [resolve_alone _ (hnul' entry hentry), resolve_alone _ (hnul' entry hentry)]
  · have hspace : bareSpace "C\\" = "C" := by decide +kernel
    have hplace : Path.spelled [] "lib" = ["lib"] := by decide +kernel
    rw [IsRuleOf, rule, resolve_alone _ (by decide), hspace, hplace]
    rfl

/-- The second table makes `A\X` the best name of a file in `lib`, though the first table has a rule for `lib` that
gives `B\X`; and a rule that stands last gives the first name, since a deeper one gives it too. -/
theorem candidates_shared_nested :
    (∃ r, (ofManifest (alone unshared) (Path.ofPlace [])).outcome = .ok r ∧
      r.candidates (alone unshared) "lib/X.php" = .ok [⟨"B", "X"⟩]) ∧
    (∃ r, (ofManifest (alone shared) (Path.ofPlace [])).outcome = .ok r ∧
      r.candidates (alone shared) "lib/X.php" = .ok [⟨"A", "X"⟩, ⟨"B", "X"⟩]) ∧
    ∃ r, (ofManifest (alone nested) (Path.ofPlace [])).outcome = .ok r ∧
      r.candidates (alone nested) "src/S/X.php" = .ok [⟨"B\\S", "X"⟩, ⟨"A\\S", "X"⟩] := by
  refine ⟨⟨_, ofManifest_alone tables_unshared (by decide), ?_⟩, ⟨_, ofManifest_alone tables_shared (by decide), ?_⟩,
    ⟨_, ofManifest_alone tables_nested (by decide), ?_⟩⟩
  all_goals
    refine candidates_alone _ (by decide) ?_ ?_
    · decide +kernel
    · decide +kernel

end Resolver

end Namesake
