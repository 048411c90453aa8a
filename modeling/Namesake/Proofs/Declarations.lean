import Namesake.Proofs.Documents
import Namesake.Proofs.LoneSource
import Namesake.Proofs.Reordering

/-! The rules that a manifest declares. A manifest gives rules if every table of a section that says something is an
object and every row of it names directories; what they are is then read off the rows: each row puts its directories
behind those of its namespace, and a namespace that is new comes last. So the namespaces of the first section keep
their order, each with the directories that the second section adds to it, and those of the second section alone
follow. -/

namespace Namesake

theorem toOption_eq_some_iff {α ε : Type} {x : Except ε α} {a : α} : x.toOption = some a ↔ x = .ok a := by
  cases x <;> simp [Except.toOption]

namespace Manifest

open Json

variable {α : Type} {manifest : Fields Value} {rules found : Rules} {rows : Fields Value}

/-- The lists with those of one more row behind them. -/
def put (lists : Fields (List α)) (row : String × List α) : Fields (List α) :=
  Fields.set row.1 ((Fields.get? row.1 lists).getD [] ++ row.2) lists

@[simp] theorem put_nil (row : String × List α) : put [] row = [row] := rfl

theorem put_cons_of_eq {first row : String × List α} (h : first.1 = row.1) (rest : Fields (List α)) :
    put (first :: rest) row = (row.1, first.2 ++ row.2) :: rest := by
  rw [put, Fields.get?, if_pos h, Fields.set, if_pos h, h]
  rfl

theorem put_cons_of_ne {first row : String × List α} (h : first.1 ≠ row.1) (rest : Fields (List α)) :
    put (first :: rest) row = first :: put rest row := by
  rw [put, Fields.get?, if_neg h, Fields.set, if_neg h, put]

/-- What is listed for a name after one more row. -/
theorem exists_mem_put {lists : Fields (List α)} {row : String × List α} {name : String} {x : α} :
    (∃ xs, (name, xs) ∈ put lists row ∧ x ∈ xs) ↔ (∃ xs, (name, xs) ∈ lists ∧ x ∈ xs) ∨ row.1 = name ∧ x ∈ row.2 := by
  induction lists with
  | nil =>
      obtain ⟨n, ys⟩ := row
      simp only [put_nil, List.mem_singleton, Prod.mk.injEq, List.not_mem_nil, false_and, exists_false, false_or]
      constructor
      · rintro ⟨xs, ⟨rfl, rfl⟩, hx⟩
        exact ⟨rfl, hx⟩
      · rintro ⟨rfl, hx⟩
        exact ⟨ys, ⟨rfl, rfl⟩, hx⟩
  | cons first rest ih =>
      obtain ⟨n, ys⟩ := first
      by_cases h : n = row.1
      · rw [put_cons_of_eq h]
        subst h
        simp only [List.mem_cons, Prod.mk.injEq]
        constructor
        · rintro ⟨xs, ⟨rfl, rfl⟩ | hmem, hx⟩
          · rcases List.mem_append.mp hx with hx | hx
            · exact .inl ⟨ys, .inl ⟨rfl, rfl⟩, hx⟩
            · exact .inr ⟨rfl, hx⟩
          · exact .inl ⟨xs, .inr hmem, hx⟩
        · rintro (⟨xs, ⟨rfl, rfl⟩ | hmem, hx⟩ | ⟨rfl, hx⟩)
          · exact ⟨_, .inl ⟨rfl, rfl⟩, List.mem_append_left _ hx⟩
          · exact ⟨xs, .inr hmem, hx⟩
          · exact ⟨_, .inl ⟨rfl, rfl⟩, List.mem_append_right _ hx⟩
      · rw [put_cons_of_ne h]
        simp only [List.mem_cons, or_and_right, exists_or]
        rw [ih, or_assoc]

theorem exists_mem_foldl_put {lists : Fields (List α)} {rows : Fields (List α)} {name : String} {x : α} :
    (∃ xs, (name, xs) ∈ rows.foldl put lists ∧ x ∈ xs) ↔
      (∃ xs, (name, xs) ∈ lists ∧ x ∈ xs) ∨ ∃ xs, (name, xs) ∈ rows ∧ x ∈ xs := by
  induction rows generalizing lists with
  | nil => simp
  | cons row rows ih =>
      obtain ⟨n, ys⟩ := row
      rw [List.foldl_cons, ih, exists_mem_put, or_assoc]
      simp only [List.mem_cons, Prod.mk.injEq, or_and_right, exists_or]
      refine or_congr Iff.rfl (or_congr ?_ Iff.rfl)
      constructor
      · rintro ⟨rfl, hx⟩
        exact ⟨ys, ⟨rfl, rfl⟩, hx⟩
      · rintro ⟨xs, ⟨rfl, rfl⟩, hx⟩
        exact ⟨rfl, hx⟩

theorem put_of_not_mem {lists : Fields (List α)} {row : String × List α} (h : row.1 ∉ lists.map Prod.fst) :
    put lists row = lists ++ [row] := by
  induction lists with
  | nil => rfl
  | cons first rest ih =>
      rw [List.map_cons, List.mem_cons, not_or] at h
      rw [put_cons_of_ne (Ne.symm h.1), ih h.2, List.cons_append]

theorem put_of_mem {lists : Fields (List α)} {row : String × List α} (hnodup : (lists.map Prod.fst).Nodup)
    (h : row.1 ∈ lists.map Prod.fst) :
    put lists row = lists.map fun r => (r.1, if r.1 = row.1 then r.2 ++ row.2 else r.2) := by
  induction lists with
  | nil => cases h
  | cons first rest ih =>
      rw [List.map_cons, List.nodup_cons] at hnodup
      by_cases hfirst : first.1 = row.1
      · have hrest : ∀ r ∈ rest, r.1 ≠ row.1 := by
          rintro r hr heq
          exact hnodup.1 (List.mem_map.mpr ⟨r, hr, heq.trans hfirst.symm⟩)
        have hsame : rest.map (fun r => (r.1, if r.1 = row.1 then r.2 ++ row.2 else r.2)) = rest.map id :=
          List.map_congr_left fun r hr => by rw [if_neg (hrest r hr), id]
        rw [put_cons_of_eq hfirst, List.map_cons, if_pos hfirst, hfirst, hsame, List.map_id]
      · have hmem := (List.mem_cons.mp h).resolve_left fun heq => hfirst heq.symm
        rw [put_cons_of_ne hfirst, ih hnodup.2 hmem, List.map_cons, if_neg hfirst]

theorem nodup_put {lists : Fields (List α)} (h : (lists.map Prod.fst).Nodup) (row : String × List α) :
    ((put lists row).map Prod.fst).Nodup :=
  nodup_set h _ _

theorem get?_eq_none {fields : Fields α} {name : String} (h : name ∉ fields.map Prod.fst) :
    Fields.get? name fields = none :=
  Option.eq_none_iff_forall_ne_some.mpr fun _ hv => h (List.mem_map.mpr ⟨_, mem_of_get? hv, rfl⟩)

/-- The lists with those of other lists behind them, name by name, and those of new names at the end. -/
def joined (lists others : Fields (List α)) : Fields (List α) :=
  lists.map (fun row => (row.1, row.2 ++ (Fields.get? row.1 others).getD [])) ++
    others.filter fun row => row.1 ∉ lists.map Prod.fst

theorem joined_put {lists rest : Fields (List α)} {row : String × List α} (h : (lists.map Prod.fst).Nodup)
    (hrow : row.1 ∉ rest.map Prod.fst) : joined (put lists row) rest = joined lists (row :: rest) := by
  have hnone := get?_eq_none hrow
  by_cases hmem : row.1 ∈ lists.map Prod.fst
  · have hnames : (put lists row).map Prod.fst = lists.map Prod.fst := map_fst_set _ hmem
    rw [joined, joined, hnames, put_of_mem h hmem, List.map_map, List.filter_cons_of_neg (by simpa using hmem)]
    refine congrArg (· ++ _) (List.map_congr_left fun r _ => ?_)
    by_cases hr : r.1 = row.1
    · simp [Fields.get?, hr, hnone]
    · simp [Fields.get?, hr, Ne.symm hr]
  · have hfront : ∀ r ∈ lists, row.1 ≠ r.1 := fun r hr heq => hmem (List.mem_map.mpr ⟨r, hr, heq.symm⟩)
    have hgrown : lists.map (fun r => (r.1, r.2 ++ (Fields.get? r.1 rest).getD [])) =
        lists.map fun r => (r.1, r.2 ++ (Fields.get? r.1 (row :: rest)).getD []) := by
      refine List.map_congr_left fun r hr => ?_
      rw [Fields.get?, if_neg (hfront r hr)]
    have hnew : rest.filter (fun r => r.1 ∉ (lists ++ [row]).map Prod.fst) =
        rest.filter fun r => r.1 ∉ lists.map Prod.fst := by
      refine List.filter_congr fun r hr => ?_
      have hne : r.1 ≠ row.1 := fun heq => hrow (List.mem_map.mpr ⟨r, hr, heq⟩)
      simp [hne]
    calc joined (put lists row) rest
        = lists.map (fun r => (r.1, r.2 ++ (Fields.get? r.1 rest).getD [])) ++ [row] ++
            rest.filter fun r => r.1 ∉ (lists ++ [row]).map Prod.fst := by
          rw [joined, put_of_not_mem hmem, List.map_append, List.map_singleton, hnone, Option.getD_none, List.append_nil]
      _ = joined lists (row :: rest) := by
          rw [hgrown, hnew, joined, List.filter_cons_of_pos (by simpa using hmem), List.append_assoc,
            List.singleton_append]

/-- Rows put in one after the other, each name once. -/
theorem foldl_put {lists others : Fields (List α)} (h : (lists.map Prod.fst).Nodup)
    (h' : (others.map Prod.fst).Nodup) : others.foldl put lists = joined lists others := by
  induction others generalizing lists with
  | nil => simp [joined, Fields.get?]
  | cons row rest ih =>
      rw [List.map_cons, List.nodup_cons] at h'
      rw [List.foldl_cons, ih (nodup_put h row) h'.2, joined_put h h'.1]

theorem filter_spread (p : String → Bool) (lists : Fields (List α)) :
    lists.spread.filter (fun entry => p entry.1) = (Fields.spread (lists.filter fun row => p row.1)) := by
  induction lists with
  | nil => rfl
  | cons row rest ih =>
      rw [Fields.spread, List.flatMap_cons, List.filter_append, ← Fields.spread, ih, List.filter_map]
      cases hp : p row.1 with
      | false => simp [hp, Function.comp_def]
      | true => simp [hp, Function.comp_def, Fields.spread]

/-- What is listed for one name. -/
theorem filter_spread_eq {lists : Fields (List α)} (h : (lists.map Prod.fst).Nodup) (name : String) :
    lists.spread.filter (fun entry => entry.1 = name) =
      ((Fields.get? name lists).getD []).map fun x => (name, x) := by
  rw [filter_spread (fun n => decide (n = name))]
  induction lists with
  | nil => rfl
  | cons row rest ih =>
      rw [List.map_cons, List.nodup_cons] at h
      by_cases hrow : row.1 = name
      · have hrest : rest.filter (fun r => decide (r.1 = name)) = [] := by
          refine List.filter_eq_nil_iff.mpr fun r hr heq => h.1 (List.mem_map.mpr ⟨r, hr, ?_⟩)
          exact (of_decide_eq_true heq).trans hrow.symm
        rw [List.filter_cons_of_pos (by simpa using hrow), hrest]
        simp [Fields.spread, Fields.get?, hrow]
      · rw [List.filter_cons_of_neg (by simpa using hrow), ih h.2, Fields.get?, if_neg hrow]

theorem spread_joined (lists : Fields (List α)) {others : Fields (List α)} (h : (others.map Prod.fst).Nodup) :
    (joined lists others).spread = (lists.flatMap fun row => (row.2.map fun x => (row.1, x)) ++
      others.spread.filter fun entry => entry.1 = row.1) ++
      others.spread.filter fun entry => entry.1 ∉ lists.map Prod.fst := by
  rw [joined, Fields.spread, List.flatMap_append, List.flatMap_map, ← Fields.spread]
  simp only [filter_spread_eq h, List.map_append]
  rw [filter_spread (fun n => decide (n ∉ lists.map Prod.fst))]

/-! ### The tables of a manifest -/

/-- The row names these directories. -/
def Lists (row : String × Value) (listed : String × List Value) : Prop :=
  listed.1 = row.1 ∧ directories row.2 = .ok listed.2

theorem addRule_eq_ok_iff {row : String × Value} :
    addRule rules row = .ok found ↔ ∃ listed, Lists row listed ∧ found = put rules listed := by
  rw [addRule, map_eq_ok_iff]
  constructor
  · rintro ⟨ds, hds, rfl⟩
    exact ⟨(row.1, ds), ⟨rfl, hds⟩, rfl⟩
  · rintro ⟨⟨name, ds⟩, ⟨rfl, hds⟩, rfl⟩
    exact ⟨ds, hds, rfl⟩

theorem foldlM_addRule_eq_ok_iff :
    rows.foldlM addRule rules = .ok found ↔ ∃ lists, List.Forall₂ Lists rows lists ∧ found = lists.foldl put rules := by
  induction rows generalizing rules with
  | nil =>
      rw [List.foldlM_nil]
      simp only [List.forall₂_nil_left_iff, exists_eq_left, List.foldl_nil]
      exact ⟨fun h => (Except.ok.inj h).symm, fun h => congrArg _ h.symm⟩
  | cons row rows ih =>
      simp only [List.foldlM_cons, bind_eq_ok_iff, addRule_eq_ok_iff, ih, List.forall₂_cons_left_iff]
      constructor
      · rintro ⟨-, ⟨listed, hrow, rfl⟩, lists, hlists, rfl⟩
        exact ⟨listed :: lists, ⟨listed, lists, hrow, hlists, rfl⟩, rfl⟩
      · rintro ⟨-, ⟨listed, lists, hrow, hlists, rfl⟩, rfl⟩
        exact ⟨_, ⟨listed, hrow, rfl⟩, lists, hlists, rfl⟩

/-- The rows of the rules in a section of the manifest. What is no section has none. -/
def tableIn (manifest : Fields Value) (name : String) : Except ShapeFault (Fields Value) :=
  match Fields.get? name manifest with
  | some (.object section_) => table section_
  | _ => .ok []

theorem addSection_eq (name : String) :
    addSection manifest rules name = tableIn manifest name >>= fun rows => rows.foldlM addRule rules := by
  unfold addSection tableIn
  cases Fields.get? name manifest with
  | none => rfl
  | some section_ => cases section_ <;> rfl

theorem addSection_eq_ok_iff {name : String} :
    addSection manifest rules name = .ok found ↔ ∃ rows lists, tableIn manifest name = .ok rows ∧
      List.Forall₂ Lists rows lists ∧ found = lists.foldl put rules := by
  simp only [addSection_eq, bind_eq_ok_iff, foldlM_addRule_eq_ok_iff]
  constructor
  · rintro ⟨rows, htable, lists, hlists, rfl⟩
    exact ⟨rows, lists, htable, hlists, rfl⟩
  · rintro ⟨rows, lists, htable, hlists, rfl⟩
    exact ⟨rows, htable, lists, hlists, rfl⟩

/-- The manifest gives rules iff it is an object whose tables are made of rows that name directories; the rules are
then those of both tables put together. -/
theorem rules_eq_ok_iff {m : Value} :
    Manifest.rules m = .ok found ↔ ∃ fields rows rows' lists lists', m = .object fields ∧
      tableIn fields "autoload" = .ok rows ∧ tableIn fields "autoload-dev" = .ok rows' ∧
      List.Forall₂ Lists rows lists ∧ List.Forall₂ Lists rows' lists' ∧ found = (lists ++ lists').foldl put [] := by
  cases m with
  | object fields =>
      rw [Manifest.rules, sections, List.foldlM_cons, bind_eq_ok_iff]
      simp only [List.foldlM_cons, List.foldlM_nil, bind_eq_ok_iff, addSection_eq_ok_iff, List.foldl_append]
      constructor
      · rintro ⟨-, ⟨rows, lists, hrows, hlists, rfl⟩, -, ⟨rows', lists', hrows', hlists', rfl⟩, heq⟩
        exact ⟨fields, rows, rows', lists, lists', rfl, hrows, hrows', hlists, hlists', (Except.ok.inj heq).symm⟩
      · rintro ⟨_, rows, rows', lists, lists', ⟨rfl⟩, hrows, hrows', hlists, hlists', rfl⟩
        exact ⟨_, ⟨rows, lists, hrows, hlists, rfl⟩, _, ⟨rows', lists', hrows', hlists', rfl⟩, rfl⟩
  | _ => exact iff_of_false nofun (by rintro ⟨_, _, _, _, _, heq, -⟩; cases heq)

end Manifest

namespace Resolver

open Text

variable {v : Vantage} {root : Path} {data : Octets} {m : Json.Value} {r : Resolver}

/-- The value of a manifest with this content, if it can be read. -/
def manifestOf? (data : Octets) : Option Json.Value :=
  (Utf8.decode? data).toOption.bind fun s => (Json.parse s).toOption

theorem ofManifest_of_none (hread : v.read (root.join (Path.ofString manifestName)) = .ok data)
    (h : manifestOf? data = none) : (ofManifest v root).outcome = ofRules v root [] := by
  unfold ofManifest
  dsimp only
  rw [hread]
  dsimp only
  rw [← manifestOf?, h]

theorem ofManifest_of_some (hread : v.read (root.join (Path.ofString manifestName)) = .ok data)
    (h : manifestOf? data = some m) :
    (ofManifest v root).outcome = (Manifest.rules m).mapError .shape >>= fun found =>
      ofRules v root (found.map fun row => (row.1, .list row.2)) := by
  unfold ofManifest
  dsimp only
  rw [hread]
  dsimp only
  rw [← manifestOf?, h]
  dsimp only
  cases Manifest.rules m <;> rfl

/-- A manifest that can be read as a value gives a resolver iff it declares rules and all that they list can be looked
up; then there is one rule for each. -/
theorem ofManifest_eq_ok_iff (hread : v.read (root.join (Path.ofString manifestName)) = .ok data)
    (h : manifestOf? data = some m) : (ofManifest v root).outcome = .ok r ↔ ∃ found base rules,
      Manifest.rules m = .ok found ∧ v.resolve root = .ok base ∧
      List.Forall₂ (fun entry r => rule v base entry.1 entry.2 = .ok r) found.spread rules ∧
      r = .autoload base rules := by
  rw [ofManifest_of_some hread h]
  cases Manifest.rules m with
  | error e => exact iff_of_false nofun (by rintro ⟨_, _, _, ⟨⟩, -⟩)
  | ok found =>
      show ofRules _ _ _ = _ ↔ _
      rw [ofRules_lists_eq_ok_iff]
      simp only [Except.ok.injEq, exists_and_left, exists_eq_left']

/-! ### Manifests on a disk of their own -/

/-- A disk that holds a manifest and nothing else, seen from its root. -/
def alone (s : String) : Vantage :=
  ⟨.flat [(manifestName, Utf8.encode s)], []⟩

theorem read_alone (s : String) :
    (alone s).read ((Path.ofPlace []).join (Path.ofString manifestName)) = .ok (Utf8.encode s) := by
  have hfile : (alone s).disk.find? [manifestName] = some (.file (Utf8.encode s)) := by
    rw [alone, Disk.find?_flat]
    rfl
  rw [Host.join_manifest]
  exact (Vantage.holds_file Host.isShort_manifest hfile).read

theorem straight_alone (s : String) {text : String} (h : Path.holdsNul text = false) :
    (alone s).disk.Straight [] text :=
  ⟨h, fun _ _ => Disk.not_link_flat _ _⟩

theorem resolve_alone (s : String) {text : String} (h : Path.holdsNul text = false) :
    (alone s).resolve ((Path.ofPlace []).join (Path.ofString text)) = .ok (Path.ofPlace (Path.spelled [] text)) :=
  Vantage.resolve_join_of_straight (straight_alone s h) (List.forall_mem_nil _)

end Resolver

end Namesake
