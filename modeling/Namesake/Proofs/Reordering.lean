import Mathlib.Data.List.Forall2
import Namesake.Proofs.Candidates

/-! Mappings with the same directories in another order. A resolver has one rule for each directory that a mapping
names, so another order of the directories is another order of the rules. The directories above one place lie one in
the other; if they are all different, no two are equally deep, and the rules that derive a name for the place stand in
the only order that their depths allow, however they were declared. -/

namespace Namesake

theorem exists_forall₂ {α β : Type} {R : α → β → Prop} {l : List α} (h : ∀ a ∈ l, ∃ b, R a b) :
    ∃ bs, List.Forall₂ R l bs := by
  induction l with
  | nil => exact ⟨[], .nil⟩
  | cons a l ih =>
      obtain ⟨⟨b, hb⟩, hl⟩ := List.forall_mem_cons.mp h
      obtain ⟨bs, hbs⟩ := ih hl
      exact ⟨b :: bs, .cons hb hbs⟩

/-- What is related piece by piece is related as a whole. -/
theorem forall₂_flatMap_iff {α β γ : Type} {R : β → γ → Prop} {g : α → List β} {l : List α} {cs : List γ} :
    List.Forall₂ R (l.flatMap g) cs ↔
      ∃ pieces, List.Forall₂ (fun a => List.Forall₂ R (g a)) l pieces ∧ cs = pieces.flatten := by
  induction l generalizing cs with
  | nil =>
      rw [List.flatMap_nil, List.forall₂_nil_left_iff]
      constructor
      · rintro rfl
        exact ⟨[], .nil, rfl⟩
      · rintro ⟨pieces, hpieces, rfl⟩
        rw [List.forall₂_nil_left_iff.mp hpieces, List.flatten_nil]
  | cons a l ih =>
      rw [List.flatMap_cons]
      constructor
      · intro h
        have hfront := List.forall₂_take (g a).length h
        have hback := List.forall₂_drop (g a).length h
        rw [List.take_left] at hfront
        rw [List.drop_left] at hback
        obtain ⟨pieces, hpieces, hcs⟩ := ih.mp hback
        refine ⟨_, .cons hfront hpieces, ?_⟩
        rw [List.flatten_cons, ← hcs, List.take_append_drop]
      · rintro ⟨pieces, hpieces, rfl⟩
        cases hpieces with
        | cons hfront hback => exact List.rel_append hfront (ih.mpr ⟨_, hback, rfl⟩)

/-- Each element of each list with the name of the list. -/
def Json.Fields.spread {α : Type} (lists : Fields (List α)) : List (String × α) :=
  lists.flatMap fun row => row.2.map fun x => (row.1, x)

namespace Mapping

/-- Each directory with the namespace that it is declared for, in the order of their declaration. -/
def entries (m : Mapping) : List (String × String) :=
  m.flatMap fun row => row.2.toList.map fun dir => (row.1, dir)

/-- The directories of each namespace as values. -/
def lists (m : Mapping) : Json.Fields (List Json.Value) :=
  m.map fun row => (row.1, row.2.toList.map .text)

theorem spread_lists (m : Mapping) : m.lists.spread = m.entries.map fun entry => (entry.1, .text entry.2) := by
  simp only [lists, entries, Json.Fields.spread, List.flatMap_map, List.map_flatMap, List.map_map, Function.comp_def]

end Mapping

namespace Resolver

variable {v : Vantage} {root base : Path} {m m' : Mapping} {rules rules' : List Rule} {p : Place} {r : Resolver}

theorem ofRules_eq_ok_iff {rows : Json.Fields Json.Value} :
    ofRules v root rows = .ok r ↔ ∃ base found, v.resolve root = .ok base ∧
      List.Forall₂ (fun row rs => rulesFor v base row = .ok rs) rows found ∧ r = .autoload base found.flatten := by
  simp only [ofRules, bind_eq_ok_iff, mapM_eq_ok_iff]
  constructor
  · rintro ⟨base, hbase, found, hfound, heq⟩
    exact ⟨base, found, hbase, hfound, (Except.ok.inj heq).symm⟩
  · rintro ⟨base, found, hbase, hfound, rfl⟩
    exact ⟨base, hbase, found, hfound, rfl⟩

/-- Lists of directories give one rule for each directory, in the order of their declaration. -/
theorem ofRules_lists_eq_ok_iff {lists : Json.Fields (List Json.Value)} :
    ofRules v root (lists.map fun row => (row.1, .list row.2)) = .ok r ↔ ∃ base rules, v.resolve root = .ok base ∧
      List.Forall₂ (fun entry r => rule v base entry.1 entry.2 = .ok r) lists.spread rules ∧
        r = .autoload base rules := by
  have hrow (base : Path) (row : String × List Json.Value) (rs : List Rule) :
      rulesFor v base (row.1, .list row.2) = .ok rs ↔
        List.Forall₂ (fun entry r => rule v base entry.1 entry.2 = .ok r) (row.2.map fun dir => (row.1, dir)) rs := by
    rw [List.forall₂_map_left_iff]
    exact mapM_eq_ok_iff
  rw [ofRules_eq_ok_iff]
  simp only [List.forall₂_map_left_iff (f := fun row : String × List Json.Value => (row.1, Json.Value.list row.2)), hrow,
    Json.Fields.spread, forall₂_flatMap_iff]
  constructor
  · rintro ⟨base, found, hbase, hfound, rfl⟩
    exact ⟨base, _, hbase, ⟨found, hfound, rfl⟩, rfl⟩
  · rintro ⟨base, -, hbase, ⟨found, hfound, rfl⟩, rfl⟩
    exact ⟨base, found, hbase, hfound, rfl⟩

/-- The rule of a directory that is declared for a namespace. -/
def IsRuleOf (v : Vantage) (base : Path) (entry : String × String) (r : Rule) : Prop :=
  rule v base entry.1 (.text entry.2) = .ok r

theorem forall₂_isRuleOf_iff {base : Path} {entries : List (String × String)} :
    List.Forall₂ (fun entry r => rule v base entry.1 entry.2 = .ok r)
      (entries.map fun entry => (entry.1, .text entry.2)) rules ↔ List.Forall₂ (IsRuleOf v base) entries rules := by
  rw [List.forall₂_map_left_iff]
  exact Iff.rfl

/-- A mapping gives one rule for each directory, in the order of their declaration. -/
theorem ofRules_rows_eq_ok_iff :
    ofRules v root m.rows = .ok r ↔ ∃ base rules, v.resolve root = .ok base ∧
      List.Forall₂ (IsRuleOf v base) m.entries rules ∧ r = .autoload base rules := by
  have hrow (base : Path) (row : String × Directories) : rulesFor v base (row.1, row.2.toValue) =
      rulesFor v base (row.1, .list (row.2.toList.map .text)) := by
    rw [rulesFor, rulesFor, Directories.directories_toValue]
    rfl
  simp only [← forall₂_isRuleOf_iff, ← Mapping.spread_lists, ← ofRules_lists_eq_ok_iff, ofRules_eq_ok_iff]
  simp only [Mapping.rows, Mapping.lists, List.forall₂_map_left_iff, hrow]

/-! ### The rules above one place -/

/-- The rules whose directories lie on the way to a place, in the order of their ranks. -/
def above (rules : List Rule) (p : Place) : List Rule :=
  (ranked rules).filter fun r => r.directory.isPrefixOf p

theorem derived_eq_above (rules : List Rule) (p : Place) :
    derived rules p = ((above rules p).filterMap fun r => Rule.apply r p).eraseDups := by
  have hnone : ∀ r, ¬ r.directory.isPrefixOf p = true → Rule.apply r p = none := by
    intro r hr
    rw [Option.eq_none_iff_forall_ne_some]
    intro c hc
    obtain ⟨way, last, hp, -⟩ := Rule.apply_eq_some_iff.mp hc
    exact hr (List.isPrefixOf_iff_prefix.mpr ⟨way ++ [last], by rw [hp, List.append_assoc]⟩)
  rw [derived, above, List.filterMap_filter]
  congr 1
  refine List.filterMap_congr fun r _ => ?_
  split_ifs with hr
  · rfl
  · exact hnone r hr

theorem ranked_pairwise (rules : List Rule) :
    (ranked rules).Pairwise fun a b => b.directory.length ≤ a.directory.length := by
  obtain ⟨l, -, hl, hranked⟩ := exists_ranked rules
  rw [hranked, List.pairwise_map]
  refine hl.imp fun {a b} h => ?_
  unfold Rule.Outranks at h
  omega

/-- Directories on the way to one place that are equally deep are the same. -/
theorem eq_of_isPrefix {a b p : Place} (ha : a <+: p) (hb : b <+: p) (h : a.length = b.length) : a = b :=
  (List.prefix_of_prefix_length_le ha hb h.le).eq_of_length h

/-- If all directories are different, the rules above a place stand in the order of their depths, however they were
declared. -/
theorem above_of_perm (hperm : rules.Perm rules') (hdistinct : (rules.map Rule.directory).Nodup) (p : Place) :
    above rules p = above rules' p := by
  have hrules : (above rules p).Perm (above rules' p) :=
    ((List.mergeSort_perm rules _).trans (hperm.trans (List.mergeSort_perm rules' _).symm)).filter _
  refine hrules.eq_of_pairwise (fun a b ha hb hab hba => ?_) ((ranked_pairwise rules).filter _)
    ((ranked_pairwise rules').filter _)
  have ha' := List.mem_filter.mp ha
  have hb' := List.mem_filter.mp (hrules.mem_iff.mpr hb)
  have hdirectory : a.directory = b.directory :=
    eq_of_isPrefix (List.isPrefixOf_iff_prefix.mp ha'.2) (List.isPrefixOf_iff_prefix.mp hb'.2) (le_antisymm hba hab)
  have hmem {r : Rule} (hr : r ∈ ranked rules) : r ∈ rules := (List.mergeSort_perm _ _).mem_iff.mp hr
  exact List.inj_on_of_nodup_map hdistinct (hmem ha'.1) (hmem hb'.1) hdirectory

theorem derived_of_perm (hperm : rules.Perm rules') (hdistinct : (rules.map Rule.directory).Nodup) (p : Place) :
    derived rules p = derived rules' p := by
  rw [derived_eq_above, derived_eq_above, above_of_perm hperm hdistinct]

theorem candidates_of_derived {w : Vantage} (h : ∀ p, derived rules p = derived rules' p) (path : String) :
    (autoload base rules').candidates w path = (autoload base rules).candidates w path := by
  rw [candidates, candidates, funext fun q : Path => h q.names]

theorem best_of_derived {w : Vantage} (h : ∀ p, derived rules p = derived rules' p) (path : String) :
    (autoload base rules').best w path = (autoload base rules).best w path := by
  rw [best, best, candidates_of_derived h]
  rfl

/-- Two mappings with the same directories for the same namespaces, in whatever order, have the same root and give
every path the same names and the same best name or the same reason for none, if the places of the directories are all
different. -/
theorem candidates_of_reordered (hentries : m.entries.Perm m'.entries)
    (hrules : ofRules v root m.rows = .ok (.autoload base rules)) (hdistinct : (rules.map Rule.directory).Nodup) :
    ∃ rules', ofRules v root m'.rows = .ok (.autoload base rules') ∧ rules.Perm rules' ∧ ∀ (w : Vantage) path,
      (autoload base rules').candidates w path = (autoload base rules).candidates w path ∧
      (autoload base rules').best w path = (autoload base rules).best w path := by
  obtain ⟨base', found, hbase, hfound, heq⟩ := ofRules_rows_eq_ok_iff.mp hrules
  cases heq
  obtain ⟨rules', hrules', hperm⟩ := List.perm_comp_forall₂ hentries.symm hfound
  have hderived := derived_of_perm hperm.symm hdistinct
  refine ⟨rules', ofRules_rows_eq_ok_iff.mpr ⟨base, rules', hbase, hrules', rfl⟩, hperm.symm, fun w path => ?_⟩
  exact ⟨candidates_of_derived hderived path, best_of_derived hderived path⟩

/-- A directory inside another one, declared before and after it. -/
theorem candidates_of_reordered_nested :
    let v : Vantage := ⟨.empty, ["home"]⟩
    let m : Mapping := [("Acme\\", .several ["src", "lib"]), ("Acme\\Tests\\", .one "src/tests")]
    let m' : Mapping := [("Acme\\Tests\\", .one "src/tests"), ("Acme\\", .several ["lib", "src"])]
    let base := Path.ofPlace ["home", "proj"]
    let rules : List Rule := [⟨"Acme", ["home", "proj", "src"]⟩, ⟨"Acme", ["home", "proj", "lib"]⟩,
      ⟨"Acme\\Tests", ["home", "proj", "src", "tests"]⟩]
    (m.entries.Perm m'.entries ∧ ofRules v (Path.ofString "proj") m.rows = .ok (.autoload base rules) ∧
      (rules.map Rule.directory).Nodup) ∧
    ∃ rules', ofRules v (Path.ofString "proj") m'.rows = .ok (.autoload base rules') ∧ rules.Perm rules' ∧
      ∀ (w : Vantage) path, (autoload base rules').candidates w path = (autoload base rules).candidates w path ∧
        (autoload base rules').best w path = (autoload base rules).best w path := by
  intro v m m' base rules
  have hcwd : ∀ n ∈ v.cwd, Path.IsEntry n :=
    List.forall_mem_singleton.mpr ⟨⟨by decide, by decide, by decide⟩, by decide, by decide⟩
  have hnul : ∀ row ∈ m, ∀ dir ∈ row.2.toList, Path.holdsNul dir = false := by decide
  have hbase : Path.spelled v.cwd "proj" = ["home", "proj"] := by decide +kernel
  have hspelled : m.rules ["home", "proj"] = rules := by decide +kernel
  have hrules : ofRules v (Path.ofString "proj") m.rows = .ok (.autoload base rules) := by
    rw [ofRules_eq hcwd (Disk.straight_empty _ (by decide)) fun row hrow dir hdir =>
      Disk.straight_empty _ (hnul row hrow dir hdir), hbase, hspelled]
  have hentries : m.entries.Perm m'.entries := by decide
  have hdistinct : (rules.map Rule.directory).Nodup := by decide
  exact ⟨⟨hentries, hrules, hdistinct⟩, candidates_of_reordered hentries hrules hdistinct⟩

end Resolver

end Namesake
