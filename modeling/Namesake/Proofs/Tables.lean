import Namesake.Proofs.Declarations

/-! Manifests whose two tables map namespaces to directories. The rules stand in the order of the first table; what the
second table says about a namespace of the first one stands with that namespace, and what it says about others comes
last. In each table a namespace stands where the text has it first, with the directories that the text has for it
last. -/

namespace Namesake

/-! ### The order of two tables -/

namespace Mapping

variable {auto dev dev' m : Mapping} {space dir : String} {front back : List (String × String)}

/-- The directories of a namespace, and after them those that another table gives it. -/
def block (dev : Mapping) (row : String × Directories) : List (String × String) :=
  (row.2.toList.map fun dir => (row.1, dir)) ++ dev.entries.filter fun entry => entry.1 = row.1

/-- The directories of two tables: those of each namespace of the first one, and then what the second one says about
other namespaces. -/
def declared (auto dev : Mapping) : List (String × String) :=
  auto.flatMap (block dev) ++ dev.entries.filter fun entry => entry.1 ∉ auto.map Prod.fst

/-- The namespaces up to this one, or all of them if it is not among them. -/
def upTo (m : Mapping) (space : String) : List String :=
  (m.map Prod.fst).takeWhile (· ≠ space) ++ [space]

theorem mem_blocks (dev : Mapping) {entry : String × String} (h : entry ∈ auto.entries) :
    entry ∈ auto.flatMap (block dev) := by
  obtain ⟨row, hrow, hin⟩ := List.mem_flatMap.mp h
  exact List.mem_flatMap.mpr ⟨row, hrow, List.mem_append_left _ hin⟩

theorem mem_declared (dev : Mapping) {entry : String × String} (h : entry ∈ auto.entries) :
    entry ∈ auto.declared dev :=
  List.mem_append_left _ (mem_blocks dev h)

theorem lists_map_fst (m : Mapping) : m.lists.map Prod.fst = m.map Prod.fst := by
  rw [lists, List.map_map]
  rfl

theorem spread_joined_lists (auto : Mapping) (h : (dev.map Prod.fst).Nodup) :
    (Manifest.joined auto.lists dev.lists).spread = (auto.declared dev).map fun entry => (entry.1, .text entry.2) := by
  rw [Manifest.spread_joined _ (by rwa [lists_map_fst]), lists_map_fst, spread_lists, declared, lists]
  simp only [block, List.flatMap_map, List.map_append, List.map_flatMap, List.map_map, List.filter_map,
    Function.comp_def]

theorem upTo_append {pre post : Mapping} {row : String × Directories} (h : ∀ r ∈ pre, r.1 ≠ row.1) :
    upTo (pre ++ row :: post) row.1 = pre.map Prod.fst ++ [row.1] := by
  have hpre : ∀ n ∈ pre.map Prod.fst, decide (n ≠ row.1) = true := by
    intro n hn
    obtain ⟨r, hr, rfl⟩ := List.mem_map.mp hn
    exact decide_eq_true (h r hr)
  rw [upTo, List.map_append, List.map_cons, List.takeWhile_append_of_pos hpre,
    List.takeWhile_cons_of_neg (by simp), List.append_nil]

/-- One more directory in the second table is one more directory in all, and stands behind those of the namespaces
up to its own. -/
theorem declared_insert (hauto : (auto.map Prod.fst).Nodup) (hdev : dev.entries = front ++ back)
    (hdev' : dev'.entries = front ++ (space, dir) :: back) :
    ∃ before after, auto.declared dev = before ++ after ∧ auto.declared dev' = before ++ (space, dir) :: after ∧
      ∀ entry ∈ auto.entries, entry.1 ∈ auto.upTo space → entry ∈ before := by
  have hkeep (p : String → Bool) (hp : p space = false) :
      dev'.entries.filter (fun entry => p entry.1) = dev.entries.filter fun entry => p entry.1 := by
    rw [hdev, hdev', List.filter_append, List.filter_append, List.filter_cons_of_neg (by simpa using hp)]
  have hblock (row : String × Directories) (hrow : row.1 ≠ space) : block dev' row = block dev row := by
    rw [block, block, hkeep (fun n => decide (n = row.1)) (by simpa using hrow.symm)]
  by_cases hmem : space ∈ auto.map Prod.fst
  · obtain ⟨row, hrow, rfl⟩ := List.mem_map.mp hmem
    obtain ⟨pre, post, rfl⟩ := List.append_of_mem hrow
    obtain ⟨-, hrest, hapart⟩ := List.nodup_append.mp (List.map_append ▸ hauto)
    rw [List.map_cons, List.nodup_cons] at hrest
    have hpre : ∀ r ∈ pre, r.1 ≠ row.1 := fun r hr =>
      hapart r.1 (List.mem_map_of_mem hr) row.1 List.mem_cons_self
    have hpost : ∀ r ∈ post, r.1 ≠ row.1 := fun r hr heq => hrest.1 (List.mem_map.mpr ⟨r, hr, heq⟩)
    have hothers := hkeep (fun n => decide (n ∉ (pre ++ row :: post).map Prod.fst)) (by simp)
    refine ⟨pre.flatMap (block dev) ++ ((row.2.toList.map fun dir => (row.1, dir)) ++
        front.filter fun entry => entry.1 = row.1),
      (back.filter fun entry => entry.1 = row.1) ++ (post.flatMap (block dev) ++
        dev.entries.filter fun entry => entry.1 ∉ (pre ++ row :: post).map Prod.fst), ?_, ?_, ?_⟩
    · rw [declared, List.flatMap_append, List.flatMap_cons, block, hdev, List.filter_append]
      simp only [List.append_assoc]
    · calc declared (pre ++ row :: post) dev'
          = pre.flatMap (block dev') ++ (block dev' row ++ post.flatMap (block dev')) ++
              dev'.entries.filter fun entry => entry.1 ∉ (pre ++ row :: post).map Prod.fst := by
            rw [declared, List.flatMap_append, List.flatMap_cons]
        _ = pre.flatMap (block dev) ++ (block dev' row ++ post.flatMap (block dev)) ++
              dev.entries.filter fun entry => entry.1 ∉ (pre ++ row :: post).map Prod.fst := by
            rw [hothers, List.flatMap_congr fun r hr => hblock r (hpre r hr),
              List.flatMap_congr fun r hr => hblock r (hpost r hr)]
        _ = _ := by
            rw [block, hdev', List.filter_append, List.filter_cons_of_pos (by simp)]
            simp only [List.append_assoc, List.cons_append]
    · intro entry hentry hupto
      obtain ⟨r, hr, hin⟩ := List.mem_flatMap.mp hentry
      have hname : entry.1 = r.1 := by
        obtain ⟨_, -, rfl⟩ := List.mem_map.mp hin
        rfl
      rw [upTo_append hpre, hname, List.mem_append, List.mem_singleton] at hupto
      rcases List.mem_append.mp hr with hr | hr
      · exact List.mem_append_left _ (List.mem_flatMap.mpr ⟨r, hr, List.mem_append_left _ hin⟩)
      · rcases List.mem_cons.mp hr with rfl | hr
        · exact List.mem_append_right _ (List.mem_append_left _ hin)
        · rcases hupto with hupto | hupto
          · exact absurd rfl (hapart r.1 hupto r.1 (List.mem_cons_of_mem _ (List.mem_map_of_mem hr)))
          · exact absurd hupto (hpost r hr)
  · have hne : ∀ r ∈ auto, r.1 ≠ space := fun r hr heq => hmem (List.mem_map.mpr ⟨r, hr, heq⟩)
    refine ⟨auto.flatMap (block dev) ++ front.filter fun entry => entry.1 ∉ auto.map Prod.fst,
      back.filter fun entry => entry.1 ∉ auto.map Prod.fst, ?_, ?_, ?_⟩
    · rw [declared, hdev, List.filter_append, List.append_assoc]
    · rw [declared, List.flatMap_congr fun r hr => hblock r (hne r hr), hdev', List.filter_append,
        List.filter_cons_of_pos (by simpa using hmem), List.append_assoc]
    · exact fun entry hentry _ => List.mem_append_left _ (mem_blocks dev hentry)

end Mapping

/-! ### What a text says -/

namespace Json.Document

variable {d : Document} {fields rows : Fields Value} {name : String}

/-- The rows of rules in a section as they are written, repeated names included. -/
def table (d : Document) (name : String) : List (String × Document) :=
  ((d.last? name).bind (last? Manifest.rulesField)).elim [] members

theorem members_of_ne (h : ∀ fields, d.value ≠ .object fields) : d.members = [] := by
  cases d with
  | leaf v hleaf => rfl
  | list items => rfl
  | object ms => exact absurd rfl (h _)

/-- The rows of a table as values have each name at its first place and with its last value. -/
theorem rows_eq (h : d.value = .object fields) (htable : Manifest.table fields = .ok rows) :
    rows = Fields.ofPairs (((d.last? Manifest.rulesField).elim [] members).map fun m => (m.1, m.2.value)) := by
  rw [Manifest.table, get?_fields h] at htable
  cases hrows : d.last? Manifest.rulesField with
  | none =>
      rw [hrows] at htable
      exact (Except.ok.inj htable).symm
  | some last =>
      rw [hrows, Option.map_some] at htable
      rw [Option.elim_some]
      cases hlast : last.value with
      | object found =>
          rw [hlast] at htable
          rw [← Except.ok.inj htable]
          exact fields_eq hlast
      | _ =>
          rw [members_of_ne fun _ hobject => by cases hlast.symm.trans hobject]
          rw [hlast] at htable
          dsimp only at htable
          split_ifs at htable
          exact (Except.ok.inj htable).symm

theorem tableIn_eq (h : d.value = .object fields) (htable : Manifest.tableIn fields name = .ok rows) :
    rows = Fields.ofPairs ((d.table name).map fun m => (m.1, m.2.value)) := by
  rw [Manifest.tableIn, get?_fields h] at htable
  rw [table]
  cases hsection : d.last? name with
  | none =>
      rw [hsection] at htable
      exact (Except.ok.inj htable).symm
  | some inner =>
      rw [hsection, Option.map_some] at htable
      rw [Option.bind_some]
      cases hinner : inner.value with
      | object fs =>
          rw [hinner] at htable
          exact rows_eq hinner htable
      | _ =>
          rw [hinner] at htable
          rw [last?, members_of_ne fun _ hobject => by cases hinner.symm.trans hobject]
          exact (Except.ok.inj htable).symm

end Json.Document

namespace Mapping

/-- The mapping has one row for each name of the members, at the first place of the name and with its last value. -/
structure IsSaidBy (m : Mapping) (members : List (String × Json.Document)) : Prop where
  names : m.map Prod.fst = (members.map Prod.fst).eraseDups
  last : ∀ row ∈ m, ∃ d, (members.reverse.find? fun member => member.1 = row.1).map Prod.snd = some d ∧
    d.value = row.2.toValue

theorem rows_map_fst (m : Mapping) : m.rows.map Prod.fst = m.map Prod.fst := by
  rw [rows, List.map_map]
  rfl

theorem isSaidBy_of_rows {m : Mapping} {members : List (String × Json.Document)}
    (h : m.rows = Json.Fields.ofPairs (members.map fun member => (member.1, member.2.value))) : m.IsSaidBy members := by
  refine ⟨?_, fun row hrow => ?_⟩
  · rw [← rows_map_fst, h, Json.map_fst_ofPairs, List.map_map]
    rfl
  · have hmem : (row.1, row.2.toValue) ∈ m.rows := List.mem_map.mpr ⟨row, hrow, rfl⟩
    rw [h] at hmem
    have hlast := (Json.get?_eq_some_iff (Json.nodup_ofPairs _)).mpr hmem
    rw [Json.get?_ofPairs, ← List.map_reverse, List.find?_map, Option.map_map] at hlast
    obtain ⟨member, hfind, hvalue⟩ := Option.map_eq_some_iff.mp hlast
    exact ⟨member.2, Option.map_eq_some_iff.mpr ⟨member, hfind, rfl⟩, hvalue⟩

end Mapping

namespace Resolver

open Text

variable {v : Vantage} {root base : Path} {s : String} {auto dev : Mapping} {r : Resolver} {rules : List Rule}

/-- The manifest of a project is the text, and its tables map namespaces to directories. -/
structure Declares (v : Vantage) (root : Path) (s : String) (auto dev : Mapping) : Prop where
  read : ∃ data, v.read (root.join (Path.ofString manifestName)) = .ok data ∧ Utf8.decode? data = .ok s
  tables : ∃ fields, Json.parse s = .ok (.object fields) ∧ Manifest.tableIn fields "autoload" = .ok auto.rows ∧
    Manifest.tableIn fields "autoload-dev" = .ok dev.rows

namespace Declares

/-- The rows of the tables are read off the text. -/
theorem exists_document (h : Declares v root s auto dev) :
    ∃ d, Json.Spelled s d ∧ auto.IsSaidBy (d.table "autoload") ∧ dev.IsSaidBy (d.table "autoload-dev") := by
  obtain ⟨fields, hparse, hauto, hdev⟩ := h.tables
  obtain ⟨d, hspelled, hvalue⟩ := Json.exists_spelled hparse
  exact ⟨d, hspelled, Mapping.isSaidBy_of_rows (d.tableIn_eq hvalue hauto),
    Mapping.isSaidBy_of_rows (d.tableIn_eq hvalue hdev)⟩

theorem nodup_names (h : Declares v root s auto dev) : (auto.map Prod.fst).Nodup ∧ (dev.map Prod.fst).Nodup := by
  obtain ⟨d, -, hauto, hdev⟩ := h.exists_document
  rw [hauto.names, hdev.names, ← Json.map_fst_ofPairs, ← Json.map_fst_ofPairs]
  exact ⟨Json.nodup_ofPairs _, Json.nodup_ofPairs _⟩

theorem rules_eq {fields : Json.Fields Json.Value} (hauto : Manifest.tableIn fields "autoload" = .ok auto.rows)
    (hdev : Manifest.tableIn fields "autoload-dev" = .ok dev.rows)
    (hnodup : (auto.map Prod.fst).Nodup ∧ (dev.map Prod.fst).Nodup) :
    Manifest.rules (.object fields) = .ok (Manifest.joined auto.lists dev.lists) := by
  have hlists (m : Mapping) : List.Forall₂ Manifest.Lists m.rows m.lists := by
    rw [Mapping.rows, Mapping.lists, List.forall₂_map_left_iff, List.forall₂_map_right_iff, List.forall₂_same]
    exact fun row _ => ⟨rfl, Directories.directories_toValue row.2⟩
  refine Manifest.rules_eq_ok_iff.mpr ⟨fields, _, _, _, _, rfl, hauto, hdev, hlists auto, hlists dev, ?_⟩
  have hfirst : auto.lists.foldl Manifest.put [] = auto.lists := by
    have hnames : (auto.lists.map Prod.fst).Nodup := by
      rw [Mapping.lists_map_fst]
      exact hnodup.1
    rw [@Manifest.foldl_put _ [] _ List.nodup_nil hnames]
    simp [Manifest.joined]
  rw [List.foldl_append, hfirst, Manifest.foldl_put] <;> rw [Mapping.lists_map_fst]
  · exact hnodup.1
  · exact hnodup.2

/-- The resolver that a manifest asks for has one rule for each directory of its tables. -/
theorem outcome_eq_ok_iff (h : Declares v root s auto dev) :
    (ofManifest v root).outcome = .ok r ↔ ∃ base rules, v.resolve root = .ok base ∧
      List.Forall₂ (IsRuleOf v base) (auto.declared dev) rules ∧ r = .autoload base rules := by
  have hnodup := h.nodup_names
  obtain ⟨data, hread, hdecode⟩ := h.read
  obtain ⟨fields, hparse, hauto, hdev⟩ := h.tables
  have hmanifest : manifestOf? data = some (.object fields) := by
    rw [manifestOf?, hdecode]
    show (Json.parse s).toOption = _
    rw [hparse]
    rfl
  rw [ofManifest_eq_ok_iff hread hmanifest, rules_eq hauto hdev hnodup]
  simp only [Except.ok.injEq, exists_eq_left', exists_and_left, Mapping.spread_joined_lists auto hnodup.2,
    forall₂_isRuleOf_iff]

end Declares

end Resolver

/-! ### Manifests on a disk of their own -/

namespace Mapping

def texts? : List Json.Value → Option (List String)
  | [] => some []
  | .text s :: rest => (texts? rest).map (s :: ·)
  | _ => none

theorem eq_of_texts? {vs : List Json.Value} {texts : List String} (h : texts? vs = some texts) :
    vs = texts.map .text := by
  induction vs generalizing texts with
  | nil =>
      cases h
      rfl
  | cons v rest ih =>
      cases v with
      | text s =>
          obtain ⟨others, hothers, rfl⟩ := Option.map_eq_some_iff.mp h
          rw [ih hothers]
          rfl
      | _ => cases h

def directories? : Json.Value → Option Directories
  | .text s => some (.one s)
  | .list items => (texts? items).map .several
  | _ => none

theorem eq_of_directories? {value : Json.Value} {ds : Directories} (h : directories? value = some ds) :
    value = ds.toValue := by
  cases value with
  | text s =>
      cases h
      rfl
  | list items =>
      obtain ⟨texts, htexts, rfl⟩ := Option.map_eq_some_iff.mp h
      rw [eq_of_texts? htexts]
      rfl
  | _ => cases h

/-- The mapping that rows are, if they are one. -/
def ofRows? : Json.Fields Json.Value → Option Mapping
  | [] => some []
  | row :: rest => (directories? row.2).bind fun ds => (ofRows? rest).map ((row.1, ds) :: ·)

theorem eq_of_ofRows? {rows : Json.Fields Json.Value} {m : Mapping} (h : ofRows? rows = some m) : rows = m.rows := by
  induction rows generalizing m with
  | nil =>
      cases h
      rfl
  | cons row rest ih =>
      obtain ⟨ds, hds, h⟩ := Option.bind_eq_some_iff.mp h
      obtain ⟨others, hothers, rfl⟩ := Option.map_eq_some_iff.mp h
      obtain ⟨name, value⟩ := row
      rw [ih hothers, show value = ds.toValue from eq_of_directories? hds]
      rfl

/-- The tables of a manifest. -/
def tables? : Json.Value → Option (Mapping × Mapping)
  | .object fields =>
    ((Manifest.tableIn fields "autoload").toOption.bind ofRows?).bind fun auto =>
      ((Manifest.tableIn fields "autoload-dev").toOption.bind ofRows?).map (auto, ·)
  | _ => none

end Mapping

namespace Resolver

open Text

variable {v : Vantage} {root base : Path} {s : String} {auto dev : Mapping} {rules : List Rule}

theorem declares_alone (h : (Json.parse s).toOption.bind Mapping.tables? = some (auto, dev)) :
    Declares (alone s) (Path.ofPlace []) s auto dev := by
  refine ⟨⟨_, read_alone s, Utf8.decode?_encode s⟩, ?_⟩
  obtain ⟨m, hparse, htables⟩ := Option.bind_eq_some_iff.mp h
  cases m with
  | object fields =>
      obtain ⟨first, hfirst, h⟩ := Option.bind_eq_some_iff.mp htables
      obtain ⟨second, hsecond, heq⟩ := Option.map_eq_some_iff.mp h
      cases heq
      obtain ⟨rows, hrows, hauto⟩ := Option.bind_eq_some_iff.mp hfirst
      obtain ⟨rows', hrows', hdev⟩ := Option.bind_eq_some_iff.mp hsecond
      rw [Mapping.eq_of_ofRows? hauto] at hrows
      rw [Mapping.eq_of_ofRows? hdev] at hrows'
      exact ⟨fields, toOption_eq_some_iff.mp hparse, toOption_eq_some_iff.mp hrows, toOption_eq_some_iff.mp hrows'⟩
  | _ => cases htables

/-- On the disk of a manifest the rules are told from the spelling of the declared directories. -/
theorem ofManifest_alone (h : (Json.parse s).toOption.bind Mapping.tables? = some (auto, dev))
    (hnul : ∀ entry ∈ auto.declared dev, Path.holdsNul entry.2 = false) :
    (ofManifest (alone s) (Path.ofPlace [])).outcome = .ok (.autoload (Path.ofPlace [])
      ((auto.declared dev).map fun entry => ⟨bareSpace entry.1, Path.spelled [] entry.2⟩)) := by
  refine (declares_alone h).outcome_eq_ok_iff.mpr ⟨_, _, Vantage.resolve_root _ _, ?_, rfl⟩
  rw [List.forall₂_map_right_iff, List.forall₂_same]
  intro entry hentry
  rw [IsRuleOf, rule, resolve_alone s (hnul entry hentry)]
  rfl

end Resolver

end Namesake
