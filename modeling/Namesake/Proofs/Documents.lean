import Mathlib.Data.List.Basic
import Namesake.Json.Reader
import Namesake.Proofs.JsonTable
import Namesake.Proofs.Outcomes

/-! Documents as they are written. A document keeps all members of an object in their order, repeated names
included; its value keeps one field for each name, at the first place of the name and with its last value. `Spells`
is the grammar of values over the same texts, numbers and words as the reader; the reader gives the value of a document
that the text spells. -/

namespace Namesake

namespace Json

/-- Neither a list nor an object. -/
def Value.IsLeaf : Value → Prop
  | .list _ => False
  | .object _ => False
  | _ => True

theorem isLeaf_of_number? {cs rest : List Char} {v : Value} (h : number? cs = some (v, rest)) : v.IsLeaf := by
  unfold number? at h
  simp only [Option.bind_eq_bind, Option.bind_eq_some_iff] at h
  obtain ⟨⟨ds, mid⟩, -, h⟩ := h
  dsimp only at h
  split at h
  all_goals
    have hv : _ = v := congrArg Prod.fst (Option.some.inj h)
    rw [← hv]
    trivial

theorem isLeaf_of_word? {cs rest : List Char} {v : Value} (h : word? cs = some (v, rest)) : v.IsLeaf := by
  unfold word? at h
  split at h
  case h_7 => exact isLeaf_of_number? h
  all_goals
    obtain rfl := congrArg Prod.fst (Option.some.inj h)
    trivial

/-- A value as a text writes it. -/
inductive Document where
  | leaf (v : Value) (h : v.IsLeaf)
  | list (items : List Document)
  | object (members : List (String × Document))

namespace Document

mutual

def value : Document → Value
  | .leaf v _ => v
  | .list items => .list (values items)
  | .object members => .object (Fields.ofPairs (pairs members))

def values : List Document → List Value
  | [] => []
  | d :: ds => value d :: values ds

def pairs : List (String × Document) → List (String × Value)
  | [] => []
  | m :: ms => pair m :: pairs ms

def pair : String × Document → String × Value
  | (name, d) => (name, value d)

end

theorem pairs_eq_map (ms : List (String × Document)) : pairs ms = ms.map fun m => (m.1, m.2.value) := by
  induction ms with
  | nil => rfl
  | cons m ms ih => rw [pairs, ih, List.map_cons, pair]

end Document

/-! ### What a text spells -/

mutual

/-- The characters begin with the document, and the others follow it. -/
inductive Spells : List Char → Document → List Char → Prop where
  | text {left : Nat} {cs body rest : List Char} : textBody left cs = .ok (body, rest) →
      Spells ('"' :: cs) (.leaf (.text (String.ofList body)) trivial) rest
  | word {cs rest : List Char} {v : Value} (h : word? cs = some (v, rest)) :
      Spells cs (.leaf v (isLeaf_of_word? h)) rest
  | emptyList {cs rest : List Char} : skip cs = ']' :: rest → Spells ('[' :: cs) (.list []) rest
  | list {cs rest : List Char} {items : List Document} : SpellsItems (skip cs) items rest →
      Spells ('[' :: cs) (.list items) rest
  | emptyObject {cs rest : List Char} : skip cs = '\x7d' :: rest → Spells ('\x7b' :: cs) (.object []) rest
  | object {cs rest : List Char} {members : List (String × Document)} : SpellsMembers (skip cs) members rest →
      Spells ('\x7b' :: cs) (.object members) rest

/-- The characters begin with the items of a list and its end. -/
inductive SpellsItems : List Char → List Document → List Char → Prop where
  | last {cs mid rest : List Char} {item : Document} : Spells cs item mid → skip mid = ']' :: rest →
      SpellsItems cs [item] rest
  | more {cs mid next rest : List Char} {item : Document} {items : List Document} : Spells cs item mid →
      skip mid = ',' :: next → SpellsItems (skip next) items rest → SpellsItems cs (item :: items) rest

/-- The characters begin with the members of an object and its end. -/
inductive SpellsMembers : List Char → List (String × Document) → List Char → Prop where
  | last {cs name colon front mid rest : List Char} {left : Nat} {item : Document} :
      textBody left cs = .ok (name, colon) → skip colon = ':' :: front → Spells (skip front) item mid →
      skip mid = '\x7d' :: rest → SpellsMembers ('"' :: cs) [(String.ofList name, item)] rest
  | more {cs name colon front mid next rest : List Char} {left : Nat} {item : Document}
      {members : List (String × Document)} :
      textBody left cs = .ok (name, colon) → skip colon = ':' :: front → Spells (skip front) item mid →
      skip mid = ',' :: next → SpellsMembers (skip next) members rest →
      SpellsMembers ('"' :: cs) ((String.ofList name, item) :: members) rest

end

/-- The whole text is the document, with blanks around it. -/
def Spelled (s : String) (d : Document) : Prop :=
  ∃ rest, Spells (skip s.toList) d rest ∧ skip rest = []

/-- Fields with those of further members put in, one after the other. -/
def withMembers (found : Fields Value) (members : List (String × Document)) : Fields Value :=
  members.foldl (fun fields m => Fields.set m.1 m.2.value fields) found

theorem ofPairs_pairs (members : List (String × Document)) :
    Fields.ofPairs (Document.pairs members) = withMembers [] members := by
  rw [Document.pairs_eq_map, Fields.ofPairs, List.foldl_map]
  rfl

/-- What each of the readers reads with a budget is spelled by the characters that it has passed. -/
structure Sound (budget : Nat) : Prop where
  value : ∀ cs v rest, value budget cs = .ok (v, rest) → ∃ d, Spells cs d rest ∧ d.value = v
  items : ∀ cs vs rest, items budget cs = .ok (vs, rest) → ∃ ds, SpellsItems cs ds rest ∧ Document.values ds = vs
  members : ∀ found cs fields rest, members budget found cs = .ok (fields, rest) →
    ∃ ms, SpellsMembers cs ms rest ∧ withMembers found ms = fields

namespace Sound

variable {budget : Nat} {cs rest : List Char}

theorem value_succ (h : Sound budget) {v : Value} (hv : Json.value (budget + 1) cs = .ok (v, rest)) :
    ∃ d, Spells cs d rest ∧ d.value = v := by
  unfold Json.value at hv
  split at hv
  · rename_i front
    obtain ⟨⟨body, mid⟩, hbody, heq⟩ := map_eq_ok_iff.mp hv
    cases heq
    exact ⟨_, .text hbody, rfl⟩
  · rename_i front
    split at hv
    · rename_i hskip
      cases hv
      exact ⟨_, .emptyList hskip, rfl⟩
    · obtain ⟨⟨vs, mid⟩, hvs, heq⟩ := map_eq_ok_iff.mp hv
      cases heq
      obtain ⟨ds, hds, rfl⟩ := h.items _ _ _ hvs
      exact ⟨_, .list hds, rfl⟩
  · rename_i front
    split at hv
    · rename_i hskip
      cases hv
      exact ⟨_, .emptyObject hskip, rfl⟩
    · obtain ⟨⟨fields, mid⟩, hfields, heq⟩ := map_eq_ok_iff.mp hv
      cases heq
      obtain ⟨ms, hms, rfl⟩ := h.members _ _ _ _ hfields
      exact ⟨_, .object hms, by rw [Document.value, ofPairs_pairs]⟩
  · split at hv
    · rename_i hword
      cases hv
      exact ⟨_, .word hword, rfl⟩
    · cases hv

theorem items_succ (h : Sound budget) {vs : List Value} (hvs : Json.items (budget + 1) cs = .ok (vs, rest)) :
    ∃ ds, SpellsItems cs ds rest ∧ Document.values ds = vs := by
  unfold Json.items at hvs
  split at hvs
  · cases hvs
  · rename_i v mid hitem
    obtain ⟨d, hd, rfl⟩ := h.value _ _ _ hitem
    split at hvs
    · rename_i hskip
      cases hvs
      exact ⟨_, .last hd hskip, rfl⟩
    · rename_i hskip
      obtain ⟨⟨vs, end_⟩, hvs, heq⟩ := map_eq_ok_iff.mp hvs
      cases heq
      obtain ⟨ds, hds, rfl⟩ := h.items _ _ _ hvs
      exact ⟨_, .more hd hskip hds, rfl⟩
    · cases hvs

theorem members_succ (h : Sound budget) {found fields : Fields Value}
    (hfields : Json.members (budget + 1) found cs = .ok (fields, rest)) :
    ∃ ms, SpellsMembers cs ms rest ∧ withMembers found ms = fields := by
  unfold Json.members at hfields
  split at hfields
  · split at hfields
    · cases hfields
    · rename_i hname
      split at hfields
      · rename_i hcolon
        split at hfields
        · cases hfields
        · rename_i hitem
          obtain ⟨d, hd, rfl⟩ := h.value _ _ _ hitem
          dsimp only at hfields
          split at hfields
          · rename_i hskip
            cases hfields
            exact ⟨_, .last hname hcolon hd hskip, rfl⟩
          · rename_i hskip
            obtain ⟨ms, hms, rfl⟩ := h.members _ _ _ _ hfields
            exact ⟨_, .more hname hcolon hd hskip hms, rfl⟩
          · cases hfields
      · cases hfields
  · cases hfields

end Sound

theorem sound (budget : Nat) : Sound budget := by
  induction budget with
  | zero => exact ⟨nofun, nofun, nofun⟩
  | succ budget ih =>
      exact ⟨fun _ _ _ => ih.value_succ, fun _ _ _ => ih.items_succ, fun _ _ _ _ => ih.members_succ⟩

/-- A text that can be read spells a document with the value that is read. -/
theorem exists_spelled {s : String} {v : Value} (h : parse s = .ok v) : ∃ d, Spelled s d ∧ d.value = v := by
  rw [parse, parseChars] at h
  dsimp only at h
  split_ifs at h
  split at h
  · cases h
  · rename_i rest hvalue
    split at h
    · rename_i hend
      cases h
      obtain ⟨d, hd, hv⟩ := (sound _).value _ _ _ hvalue
      exact ⟨d, ⟨rest, hd, hend⟩, hv⟩
    · cases h

/-! ### The fields of an object -/

section Pairs

variable {α : Type}

theorem ofPairs_concat (pairs : List (String × α)) (p : String × α) :
    Fields.ofPairs (pairs ++ [p]) = Fields.set p.1 p.2 (Fields.ofPairs pairs) := by
  rw [Fields.ofPairs, List.foldl_append]
  rfl

/-- Each name stands at its first place. -/
theorem map_fst_ofPairs (pairs : List (String × α)) :
    (Fields.ofPairs pairs).map Prod.fst = (pairs.map Prod.fst).eraseDups := by
  induction pairs using List.reverseRecOn with
  | nil => rfl
  | append_singleton pairs p ih =>
      have hmem : p.1 ∈ (Fields.ofPairs pairs).map Prod.fst ↔ p.1 ∈ pairs.map Prod.fst := by
        rw [ih, List.mem_eraseDups]
      rw [ofPairs_concat, List.map_append, List.eraseDups_append, ← ih, List.map_singleton]
      by_cases hp : p.1 ∈ pairs.map Prod.fst
      · have hnone : [p.1].removeAll (pairs.map Prod.fst) = [] := by simp [List.removeAll, hp]
        rw [map_fst_set _ (hmem.mpr hp), hnone, List.eraseDups_nil, List.append_nil]
      · have hnew : [p.1].removeAll (pairs.map Prod.fst) = [p.1] := by simp [List.removeAll, hp]
        rw [set_of_not_mem _ (mt hmem.mp hp), hnew, List.map_append]
        rfl

/-- Each name has its last value. -/
theorem get?_ofPairs (name : String) (pairs : List (String × α)) :
    Fields.get? name (Fields.ofPairs pairs) = (pairs.reverse.find? fun p => p.1 = name).map Prod.snd := by
  induction pairs using List.reverseRecOn with
  | nil => rfl
  | append_singleton pairs p ih =>
      rw [ofPairs_concat, Fields.get?_set, ih, List.reverse_concat, List.find?_cons]
      by_cases hp : p.1 = name
      · simp [hp]
      · simp [hp, Ne.symm hp]

theorem nodup_ofPairs (pairs : List (String × α)) : ((Fields.ofPairs pairs).map Prod.fst).Nodup := by
  induction pairs using List.reverseRecOn with
  | nil => exact List.nodup_nil
  | append_singleton pairs p ih =>
      rw [ofPairs_concat]
      exact nodup_set ih _ _

end Pairs

namespace Document

variable {d : Document} {fields : Fields Value}

/-- The members of an object in the order in which they are written. -/
def members : Document → List (String × Document)
  | .object ms => ms
  | _ => []

def last? (name : String) (d : Document) : Option Document :=
  (d.members.reverse.find? fun m => m.1 = name).map Prod.snd

theorem fields_eq (h : d.value = .object fields) :
    fields = Fields.ofPairs (d.members.map fun m => (m.1, m.2.value)) := by
  cases d with
  | leaf v hleaf =>
      rw [value] at h
      subst h
      exact hleaf.elim
  | list items => cases h
  | object ms =>
      rw [value, pairs_eq_map] at h
      cases h
      rfl

/-- The value of a name is that of its last member. -/
theorem get?_fields (h : d.value = .object fields) (name : String) :
    Fields.get? name fields = (d.last? name).map value := by
  rw [fields_eq h, get?_ofPairs, ← List.map_reverse, List.find?_map, last?, Option.map_map, Option.map_map]
  rfl

end Document

end Json

end Namesake
