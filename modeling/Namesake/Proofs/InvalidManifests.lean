import Namesake.Proofs.Declarations

/-! Which manifests give a resolver. One that cannot be read as a value gives a resolver without rules. One that can be
read is taken apart: a section that is no object says nothing, and so does one whose table is missing or empty; but
the whole must be an object, a table that says something must be one too, its rows must be texts, lists or objects, and
what they list must be texts that can be looked up. Everything else ends in a failure. -/

namespace Namesake

theorem exists_of_mem_left {α β : Type} {R : α → β → Prop} {l : List α} {bs : List β} (h : List.Forall₂ R l bs) {a : α}
    (ha : a ∈ l) : ∃ b ∈ bs, R a b := by
  induction h with
  | nil => cases ha
  | cons hab _ ih =>
      rcases List.mem_cons.mp ha with rfl | ha
      · exact ⟨_, List.mem_cons_self, hab⟩
      · obtain ⟨b, hb, hR⟩ := ih ha
        exact ⟨b, List.mem_cons_of_mem _ hb, hR⟩

theorem exists_of_mem_right {α β : Type} {R : α → β → Prop} {l : List α} {bs : List β} (h : List.Forall₂ R l bs) {b : β}
    (hb : b ∈ bs) : ∃ a ∈ l, R a b :=
  exists_of_mem_left h.flip hb

namespace Manifest

open Json

variable {manifest rows : Fields Value} {name : String} {v d : Value} {ds : List Value}

/-- A section, which may be missing, has these rows of rules. -/
inductive HasRows : Option Value → Fields Value → Prop where
  | missing : HasRows none []
  | noObject {v : Value} : (∀ fields, v ≠ .object fields) → HasRows (some v) []
  | noTable {fields : Fields Value} : Fields.get? rulesField fields = none → HasRows (some (.object fields)) []
  | empty {fields : Fields Value} {v : Value} : Fields.get? rulesField fields = some v → v.isPresent = false →
      HasRows (some (.object fields)) []
  | table {fields rows : Fields Value} : Fields.get? rulesField fields = some (.object rows) →
      HasRows (some (.object fields)) rows

/-- The value of a row names these directories: a text is one, and an object has its names. -/
inductive Names : Value → List Value → Prop where
  | text (s : String) : Names (.text s) [.text s]
  | list (items : List Value) : Names (.list items) items
  | object (fields : Fields Value) : Names (.object fields) (fields.map fun f => .text f.1)

theorem directories_eq_ok_iff : directories v = .ok ds ↔ Names v ds := by
  constructor
  · intro h
    cases v <;> cases h <;> constructor
  · intro h
    cases h <;> rfl

theorem hasRows_object_iff {fields : Fields Value} : HasRows (some (.object fields)) rows ↔
    (∀ v ∈ Fields.get? rulesField fields, v.isPresent = false) ∧ rows = [] ∨
      Fields.get? rulesField fields = some (.object rows) := by
  constructor
  · intro h
    cases h with
    | noObject hne => exact absurd rfl (hne fields)
    | noTable hnone =>
        rw [hnone]
        exact .inl ⟨nofun, rfl⟩
    | empty hrows hpresent => exact .inl ⟨fun v hv => Option.some.inj (hrows.symm.trans hv) ▸ hpresent, rfl⟩
    | table hrows => exact .inr hrows
  · rintro (⟨hpresent, rfl⟩ | hrows)
    · cases hrows : Fields.get? rulesField fields with
      | none => exact .noTable hrows
      | some v => exact .empty hrows (hpresent v hrows)
    · exact .table hrows

theorem hasRows_of_ne (h : ∀ fields, v ≠ .object fields) : HasRows (some v) rows ↔ rows = [] := by
  constructor
  · intro hrows
    cases hrows with
    | noObject _ => rfl
    | noTable _ => rfl
    | empty _ _ => rfl
    | table _ => exact absurd rfl (h _)
  · rintro rfl
    exact .noObject h

theorem table_eq_ok_iff {fields : Fields Value} : table fields = .ok rows ↔ HasRows (some (.object fields)) rows := by
  rw [hasRows_object_iff, table]
  cases Fields.get? rulesField fields with
  | none => simp [@eq_comm _ [] rows]
  | some v =>
      cases v with
      | object found =>
          -- an object without members is told apart from no other table without rows
          simp only [Except.ok.injEq, Option.mem_some_iff, forall_eq', Value.isPresent, Bool.not_eq_false',
            List.isEmpty_iff, Option.some.injEq, Value.object.injEq]
          exact ⟨.inr, fun h => h.elim (fun h => h.1.trans h.2.symm) id⟩
      | _ =>
          dsimp only
          split_ifs with hpresent <;> simp [hpresent, @eq_comm _ [] rows]

theorem tableIn_eq_ok_iff : tableIn manifest name = .ok rows ↔ HasRows (Fields.get? name manifest) rows := by
  rw [tableIn]
  cases Fields.get? name manifest with
  | none => exact ⟨fun h => Except.ok.inj h ▸ .missing, fun h => by cases h; rfl⟩
  | some v =>
      cases v with
      | object fields => exact table_eq_ok_iff
      | _ => rw [hasRows_of_ne (by rintro fields ⟨⟩), Except.ok.injEq, eq_comm]

/-- In one of its sections the manifest lists the directory for the namespace. -/
def ListsIn (manifest : Fields Value) (space : String) (dir : Value) : Prop :=
  ∃ name ∈ sections, ∃ rows, HasRows (Fields.get? name manifest) rows ∧
    ∃ row ∈ rows, row.1 = space ∧ ∃ ds, Names row.2 ds ∧ dir ∈ ds

/-- The rows of each section name directories. -/
def Tabled (manifest : Fields Value) : Prop :=
  ∀ name ∈ sections, ∃ rows, HasRows (Fields.get? name manifest) rows ∧ ∀ row ∈ rows, ∃ ds, Names row.2 ds

theorem lists_iff {row : String × Value} {listed : String × List Value} :
    Lists row listed ↔ row.1 = listed.1 ∧ Names row.2 listed.2 := by
  rw [Lists, directories_eq_ok_iff, eq_comm]

theorem exists_lists_iff : (∃ lists, List.Forall₂ Lists rows lists) ↔ ∀ row ∈ rows, ∃ ds, Names row.2 ds := by
  constructor
  · rintro ⟨lists, hlists⟩ row hrow
    obtain ⟨listed, -, hlisted⟩ := exists_of_mem_left hlists hrow
    exact ⟨listed.2, (lists_iff.mp hlisted).2⟩
  · intro h
    refine exists_forall₂ fun row hrow => ?_
    obtain ⟨ds, hds⟩ := h row hrow
    exact ⟨(row.1, ds), lists_iff.mpr ⟨rfl, hds⟩⟩

theorem exists_mem_lists_iff {lists : Fields (List Value)} (h : List.Forall₂ Lists rows lists) {space : String} :
    (∃ xs, (space, xs) ∈ lists ∧ d ∈ xs) ↔ ∃ row ∈ rows, row.1 = space ∧ ∃ ds, Names row.2 ds ∧ d ∈ ds := by
  constructor
  · rintro ⟨xs, hxs, hd⟩
    obtain ⟨row, hrow, hlisted⟩ := exists_of_mem_right h hxs
    obtain ⟨hname, hnames⟩ := lists_iff.mp hlisted
    exact ⟨row, hrow, hname, xs, hnames, hd⟩
  · rintro ⟨row, hrow, rfl, ds, hds, hd⟩
    obtain ⟨⟨name, xs⟩, hxs, hlisted⟩ := exists_of_mem_left h hrow
    obtain ⟨rfl, hnames⟩ := lists_iff.mp hlisted
    obtain rfl : xs = ds :=
      Except.ok.inj ((directories_eq_ok_iff.mpr hnames).symm.trans (directories_eq_ok_iff.mpr hds))
    exact ⟨xs, hxs, hd⟩

theorem exists_rules_iff : (∃ found, Manifest.rules (.object manifest) = .ok found) ↔ Tabled manifest := by
  constructor
  · rintro ⟨found, hfound⟩
    obtain ⟨_, rows, rows', lists, lists', heq, hrows, hrows', hlists, hlists', -⟩ := rules_eq_ok_iff.mp hfound
    cases heq
    refine List.forall_mem_cons.mpr ⟨⟨rows, tableIn_eq_ok_iff.mp hrows, exists_lists_iff.mp ⟨lists, hlists⟩⟩, ?_⟩
    exact List.forall_mem_singleton.mpr ⟨rows', tableIn_eq_ok_iff.mp hrows', exists_lists_iff.mp ⟨lists', hlists'⟩⟩
  · intro h
    obtain ⟨⟨rows, hrows, hnames⟩, h'⟩ := List.forall_mem_cons.mp h
    obtain ⟨rows', hrows', hnames'⟩ := List.forall_mem_singleton.mp h'
    obtain ⟨lists, hlists⟩ := exists_lists_iff.mpr hnames
    obtain ⟨lists', hlists'⟩ := exists_lists_iff.mpr hnames'
    exact ⟨_, rules_eq_ok_iff.mpr ⟨manifest, rows, rows', lists, lists', rfl, tableIn_eq_ok_iff.mpr hrows,
      tableIn_eq_ok_iff.mpr hrows', hlists, hlists', rfl⟩⟩

theorem exists_fields {m : Value} {found : Rules} (h : Manifest.rules m = .ok found) :
    ∃ fields, m = .object fields := by
  obtain ⟨fields, _, _, _, _, hm, -⟩ := rules_eq_ok_iff.mp h
  exact ⟨fields, hm⟩

/-- The rules list what the sections list. -/
theorem mem_spread_rules {found : Rules} (h : Manifest.rules (.object manifest) = .ok found) {space : String} :
    (space, d) ∈ found.spread ↔ ListsIn manifest space d := by
  obtain ⟨_, rows, rows', lists, lists', heq, hrows, hrows', hlists, hlists', rfl⟩ := rules_eq_ok_iff.mp h
  cases heq
  have hspread (fields : Fields (List Value)) :
      (space, d) ∈ fields.spread ↔ ∃ xs, (space, xs) ∈ fields ∧ d ∈ xs := by
    simp only [Fields.spread, List.mem_flatMap, List.mem_map, Prod.mk.injEq, Prod.exists]
    constructor
    · rintro ⟨_, xs, hxs, _, hd, rfl, rfl⟩
      exact ⟨xs, hxs, hd⟩
    · rintro ⟨xs, hxs, hd⟩
      exact ⟨space, xs, hxs, d, hd, rfl, rfl⟩
  have hunique {name : String} {rows found : Fields Value} (hrows : tableIn manifest name = .ok rows) :
      HasRows (Fields.get? name manifest) found ↔ found = rows := by
    rw [← tableIn_eq_ok_iff, hrows, Except.ok.injEq, eq_comm]
  rw [hspread, exists_mem_foldl_put, ListsIn]
  simp only [sections, List.mem_cons, List.not_mem_nil, or_false, exists_eq_left, hunique hrows,
    hunique hrows', false_and, exists_false, false_or, List.mem_append, or_and_right, exists_or,
    ← exists_mem_lists_iff hlists, ← exists_mem_lists_iff hlists']

end Manifest

namespace Resolver

open Json Manifest

variable {v : Vantage} {root base : Path} {data : Octets} {space : String} {dir m : Value} {a : Rule}
  {r : Resolver}

theorem rule_eq_ok_iff :
    rule v base space dir = .ok a ↔ ∃ text, dir = .text text ∧ IsRuleOf v base (space, text) a := by
  cases dir with
  | text text => exact ⟨fun h => ⟨text, rfl, h⟩, fun ⟨_, heq, h⟩ => by cases heq; exact h⟩
  | _ => exact iff_of_false nofun (by rintro ⟨_, heq, -⟩; cases heq)

theorem derived_nil (p : Place) : derived [] p = [] := by
  rw [derived, ranked, List.mergeSort_nil]
  rfl

/-- A manifest with these fields gives rules for directories that can be looked up from the root of the project. -/
structure Serves (v : Vantage) (base : Path) (fields : Fields Value) : Prop where
  tabled : Tabled fields
  found : ∀ space dir, ListsIn fields space dir →
    ∃ text q, dir = .text text ∧ v.resolve (base.join (Path.ofString text)) = .ok q

/-- A manifest that cannot be read as a value gives no path a name. -/
theorem ofManifest_of_unreadable (hread : v.read (root.join (Path.ofString manifestName)) = .ok data)
    (hroot : v.resolve root = .ok base) (hnone : manifestOf? data = none) :
    (ofManifest v root).outcome = .ok (.autoload base []) ∧
      ∀ (w : Vantage) path q, w.resolve (base.join (Path.ofString path)) = .ok q →
        (autoload base []).candidates w path = .ok [] ∧
        (autoload base []).best w path = .ok (.error (.notDerived path)) := by
  refine ⟨?_, fun w path q hq => ?_⟩
  · rw [ofManifest_of_none hread hnone, ofRules, hroot]
    rfl
  · have hcandidates : (autoload base []).candidates w path = .ok [] := by
      rw [candidates, hq]
      exact congrArg _ (derived_nil q.names)
    refine ⟨hcandidates, ?_⟩
    rw [best, hcandidates]
    rfl

theorem exists_ofManifest_iff (hread : v.read (root.join (Path.ofString manifestName)) = .ok data)
    (hroot : v.resolve root = .ok base) (hm : manifestOf? data = some m) :
    (∃ r, (ofManifest v root).outcome = .ok r) ↔ ∃ fields, m = .object fields ∧ Serves v base fields := by
  constructor
  · rintro ⟨r, hr⟩
    obtain ⟨found, _, rules, hfound, hbase, hrules, -⟩ := (ofManifest_eq_ok_iff hread hm).mp hr
    cases hroot.symm.trans hbase
    obtain ⟨fields, rfl⟩ := exists_fields hfound
    refine ⟨fields, rfl, exists_rules_iff.mp ⟨found, hfound⟩, fun space dir hlists => ?_⟩
    obtain ⟨a, -, ha⟩ := exists_of_mem_left hrules ((mem_spread_rules hfound).mpr hlists)
    obtain ⟨text, rfl, ha⟩ := rule_eq_ok_iff.mp ha
    obtain ⟨q, hq, -⟩ := map_eq_ok_iff.mp ha
    exact ⟨text, q, rfl, hq⟩
  · rintro ⟨fields, rfl, hserves⟩
    obtain ⟨found, hfound⟩ := exists_rules_iff.mpr hserves.tabled
    have hrule : ∀ entry ∈ found.spread, ∃ a, rule v base entry.1 entry.2 = .ok a := by
      intro entry hentry
      obtain ⟨text, q, hdir, hq⟩ := hserves.found entry.1 entry.2 ((mem_spread_rules hfound).mp hentry)
      refine ⟨⟨bareSpace entry.1, q.names⟩, ?_⟩
      rw [hdir, rule, hq]
      rfl
    obtain ⟨rules, hrules⟩ := exists_forall₂ hrule
    exact ⟨_, (ofManifest_eq_ok_iff hread hm).mpr ⟨found, base, rules, hfound, hroot, hrules, rfl⟩⟩

theorem mem_rules_of_ofManifest (hread : v.read (root.join (Path.ofString manifestName)) = .ok data)
    (hroot : v.resolve root = .ok base) (hm : manifestOf? data = some m) (hr : (ofManifest v root).outcome = .ok r) :
    ∃ fields rules, m = .object fields ∧ r = .autoload base rules ∧
      ∀ a, a ∈ rules ↔ ∃ space text, ListsIn fields space (.text text) ∧ IsRuleOf v base (space, text) a := by
  obtain ⟨found, _, rules, hfound, hbase, hrules, rfl⟩ := (ofManifest_eq_ok_iff hread hm).mp hr
  cases hroot.symm.trans hbase
  obtain ⟨fields, rfl⟩ := exists_fields hfound
  refine ⟨fields, rules, rfl, rfl, fun a => ?_⟩
  constructor
  · intro ha
    obtain ⟨⟨space, dir⟩, hmem, hrule⟩ := exists_of_mem_right hrules ha
    obtain ⟨text, rfl, hrule⟩ := rule_eq_ok_iff.mp hrule
    exact ⟨space, text, (mem_spread_rules hfound).mp hmem, hrule⟩
  · rintro ⟨space, text, hlists, hrule⟩
    obtain ⟨b, hb, hrule'⟩ := exists_of_mem_left hrules ((mem_spread_rules hfound).mpr hlists)
    rwa [← Except.ok.inj (hrule'.symm.trans hrule)]

/-- What a manifest gives whatever its content is. If it cannot be read as a value, there are no rules, and no path has
a name. Otherwise there is a resolver iff the manifest is an object that serves, and its rules are those of the texts
that the sections list: sections and tables that do not say anything contribute none. -/
theorem ofManifest_content (hread : v.read (root.join (Path.ofString manifestName)) = .ok data)
    (hroot : v.resolve root = .ok base) :
    (manifestOf? data = none → (ofManifest v root).outcome = .ok (.autoload base []) ∧
      ∀ (w : Vantage) path q, w.resolve (base.join (Path.ofString path)) = .ok q →
        (autoload base []).candidates w path = .ok [] ∧
        (autoload base []).best w path = .ok (.error (.notDerived path))) ∧
    ∀ m, manifestOf? data = some m →
      ((∃ r, (ofManifest v root).outcome = .ok r) ↔ ∃ fields, m = .object fields ∧ Serves v base fields) ∧
      ∀ r, (ofManifest v root).outcome = .ok r → ∃ fields rules, m = .object fields ∧ r = .autoload base rules ∧
        ∀ a, a ∈ rules ↔ ∃ space text, ListsIn fields space (.text text) ∧ IsRuleOf v base (space, text) a :=
  ⟨ofManifest_of_unreadable hread hroot,
    fun _ hm => ⟨exists_ofManifest_iff hread hroot hm, fun _ hr => mem_rules_of_ofManifest hread hroot hm hr⟩⟩

/-- A section that is a list says nothing, and the names of an object are directories. -/
theorem ofManifest_content_odd :
    let s := "\x7b\"autoload\": [1], \"autoload-dev\": \x7b\"psr-4\": \x7b\"A\\\\\": \x7b\"src\": 1\x7d\x7d\x7d\x7d"
    let v := alone s
    let base := Path.ofPlace []
    let data := Text.Utf8.encode s
    (v.read (base.join (Path.ofString manifestName)) = .ok data ∧ v.resolve base = .ok base ∧
      (manifestOf? data).isSome) ∧
    (manifestOf? data = none → (ofManifest v base).outcome = .ok (.autoload base []) ∧
      ∀ (w : Vantage) path q, w.resolve (base.join (Path.ofString path)) = .ok q →
        (autoload base []).candidates w path = .ok [] ∧
        (autoload base []).best w path = .ok (.error (.notDerived path))) ∧
    ∀ m, manifestOf? data = some m →
      ((∃ r, (ofManifest v base).outcome = .ok r) ↔ ∃ fields, m = .object fields ∧ Serves v base fields) ∧
      ∀ r, (ofManifest v base).outcome = .ok r → ∃ fields rules, m = .object fields ∧ r = .autoload base rules ∧
        ∀ a, a ∈ rules ↔ ∃ space text, ListsIn fields space (.text text) ∧ IsRuleOf v base (space, text) a := by
  intro s v base data
  have hread : v.read (base.join (Path.ofString manifestName)) = .ok data := read_alone s
  have hroot : v.resolve base = .ok base := Vantage.resolve_root _ _
  have hsome : (manifestOf? data).isSome = true := by
    rw [manifestOf?, Text.Utf8.decode?_encode]
    decide +kernel
  exact ⟨⟨hread, hroot, hsome⟩, ofManifest_content hread hroot⟩

/-- What is wrong with the shape of a manifest. -/
def faultOf? (m : Value) : Option ShapeFault :=
  match Manifest.rules m with
  | .error f => some f
  | .ok _ => none

theorem ofManifest_alone_of_fault {s : String} {f : ShapeFault} (h : (Json.parse s).toOption.bind faultOf? = some f) :
    (ofManifest (alone s) (Path.ofPlace [])).outcome = .error (.shape f) := by
  obtain ⟨m, hparse, hfault⟩ := Option.bind_eq_some_iff.mp h
  have hrules : Manifest.rules m = .error f := by
    unfold faultOf? at hfault
    split at hfault
    · rename_i hrules
      rw [hrules, Option.some.inj hfault]
    · cases hfault
  have hmanifest : manifestOf? (Text.Utf8.encode s) = some m := by
    rw [manifestOf?, Text.Utf8.decode?_encode]
    exact hparse
  rw [ofManifest_of_some (read_alone s) hmanifest, hrules]
  rfl

/-- A list, a list for a table and a number for directories are values, and are refused. -/
theorem ofManifest_fails :
    (ofManifest (alone "[]") (Path.ofPlace [])).outcome = .error (.shape (.noSections "list")) ∧
    (ofManifest (alone "\x7b\"autoload\": \x7b\"psr-4\": [\"src\"]\x7d\x7d") (Path.ofPlace [])).outcome =
      .error (.shape (.noRules "list")) ∧
    (ofManifest (alone "\x7b\"autoload\": \x7b\"psr-4\": \x7b\"A\\\\\": 5\x7d\x7d\x7d") (Path.ofPlace [])).outcome =
      .error (.shape (.noDirectories "int")) := by
  refine ⟨ofManifest_alone_of_fault ?_, ofManifest_alone_of_fault ?_, ofManifest_alone_of_fault ?_⟩
  · decide +kernel
  · decide +kernel
  · decide +kernel

end Resolver

end Namesake
