import Namesake.Php
import Namesake.Proofs.Likeness

/-! What the library asks of the tree of a text, told from what the pass over its tokens has found. -/

namespace Namesake.Php

open Syntax Text

/-- The offset at which the header of a clause ends. It has a body unless it has an end of its own. -/
def Naming.headerStop (n : Naming) (stop : Option Nat) : Nat :=
  stop.getD ((n.name.map Extent.stop).getD n.keyword.stop)

def Extent.textIn (source : Octets) (e : Extent) : String :=
  Tree.slice ⟨source, default⟩ e.start e.stop

/-- What is asked of the node of a clause. -/
structure ClauseNode (x : Syntax.Node) (n : Naming) (stop : Option Nat) : Prop where
  kind : x.kind = Tree.clauseKind
  start : x.start = n.keyword.start
  headerStop : Tree.headerStop x = n.headerStop stop
  name : x.child? "name" = n.name.map fun e => .mk "namespace_name" e.start e.stop (some "name") []
  body : (x.child? "body").isSome = stop.isNone

theorem clauseNode_statement (n : Naming) (p : Nat) :
    ClauseNode (.mk Tree.clauseKind n.keyword.start p none (Frame.clauseFront n)) n (some p) := by
  obtain ⟨kw, _ | e, j⟩ := n <;> exact ⟨rfl, rfl, rfl, rfl, rfl⟩

theorem clauseNode_block (n : Naming) (p s q : Nat) (ns : List Syntax.Node) :
    ClauseNode (.mk Tree.clauseKind n.keyword.start p none
      (Frame.clauseFront n ++ [.mk "compound_statement" s q (some "body") ns])) n none := by
  obtain ⟨kw, _ | e, j⟩ := n <;> exact ⟨rfl, rfl, rfl, rfl, rfl⟩

/-- What is asked of the node of a type. -/
structure TypeNode (x : Syntax.Node) (k : TypeKind) (e : Extent) : Prop where
  kind : x.kind = k.nodeKind
  name : x.child? "name" = some (.mk "name" e.start e.stop (some "name") [])

theorem nodeKind_ne_clauseKind (k : TypeKind) : k.nodeKind ≠ Tree.clauseKind := by
  cases k <;> decide

namespace Likeness

variable {L : Likeness} {x y : Syntax.Node}

theorem Shown.kind_eq (h : L.Shown x y) : y.kind = x.kind := by
  cases h <;> rfl

theorem Shown.exists_clause (h : L.Shown x y) (hk : x.kind = Tree.clauseKind) :
    ∃ n s n' s', L.clause n s n' s' ∧ ClauseNode x n s ∧ ClauseNode y n' s' := by
  cases h with
  | statement h => exact ⟨_, _, _, _, h, clauseNode_statement _ _, clauseNode_statement _ _⟩
  | block h => exact ⟨_, _, _, _, h, clauseNode_block _ _ _ _ _, clauseNode_block _ _ _ _ _⟩
  | type k h => exact absurd hk (nodeKind_ne_clauseKind k)

theorem Shown.exists_type (h : L.Shown x y) (hk : x.kind ≠ Tree.clauseKind) :
    ∃ k e e', L.typeName e e' ∧ TypeNode x k e ∧ TypeNode y k e' := by
  cases h with
  | statement => exact absurd rfl hk
  | block => exact absurd rfl hk
  | type k h => exact ⟨k, _, _, h, ⟨rfl, rfl⟩, ⟨rfl, rfl⟩⟩

end Likeness

/-! ### The first clause and the first type -/

/-- The nodes that are looked for in a text. -/
def sights (s : String) : List Syntax.Node :=
  shown (Outline.start.run (tokens s)).nodes

theorem shown_front (ts : List Token) : shown (front ts) = [] := by
  have hleaf {k : String} (hk : shownKinds.contains k = false) (s p : Nat) : shown [.mk k s p none []] = [] :=
    shown_leaf hk s p none
  unfold front
  rw [shown_append]
  split <;> split <;>
    simp only [shown_nil, List.append_nil, hleaf (k := Tree.textKind) (by decide), hleaf (k := Tree.tagKind) (by decide)]

theorem find?_shown {p : Syntax.Node → Bool} (hp : ∀ n, p n → shownKinds.contains n.kind) (ns : List Syntax.Node) :
    (shown ns).find? p = (ns.flatMap Syntax.Node.preorder).find? p := by
  rw [shown, List.find?_filter]
  congr 1
  funext n
  cases h : p n with
  | false => simp
  | true => simp [List.contains_iff_mem.mp (hp n h)]

theorem first?_parse (s : String) {kinds : List String} (hk : ∀ k ∈ kinds, k ∈ shownKinds) :
    (parse s).root.first? kinds = (sights s).find? fun n => kinds.contains n.kind := by
  have hroot : kinds.contains "program" = false := by
    rw [← Bool.not_eq_true, List.contains_iff_mem]
    exact fun h => absurd (hk _ h) (by decide)
  have hsub (n : Syntax.Node) (h : kinds.contains n.kind) : shownKinds.contains n.kind :=
    List.contains_iff_mem.mpr (hk _ (List.contains_iff_mem.mp h))
  have hall : sights s = shown (parse s).root.children := by
    rw [sights, parse, Syntax.Node.children, shown_append, shown_front, List.nil_append]
  rw [Syntax.Node.first?_eq_find?, Syntax.Node.preorder_eq_cons, List.find?_cons, hall, find?_shown hsub]
  have hkind : (parse s).root.kind = "program" := rfl
  rw [hkind, hroot]

/-- What is asked of a clause. -/
structure Heads (source : Octets) (c : Clause) (n : Naming) (stop : Option Nat) : Prop where
  start : c.start = n.keyword.start
  headerStop : c.headerStop = n.headerStop stop
  name : c.name = n.name.map (Extent.textIn source)
  braced : c.braced = stop.isNone

def clauseAt (t : Tree) (x : Syntax.Node) : Clause :=
  ⟨x.start, x.stop, Tree.headerStop x, (x.child? "name").map t.textOf, (x.child? "body").isSome⟩

theorem ClauseNode.heads {x : Syntax.Node} {n : Naming} {stop : Option Nat} (h : ClauseNode x n stop) (s : String) :
    Heads (Utf8.encode s) (clauseAt (parse s) x) n stop := by
  refine ⟨by rw [clauseAt, h.start], by rw [clauseAt, h.headerStop], ?_, by rw [clauseAt, h.body]⟩
  rw [clauseAt, h.name, Option.map_map]
  rfl

theorem clause?_parse (s : String) :
    (parse s).clause? = ((sights s).find? fun n => [Tree.clauseKind].contains n.kind).map (clauseAt (parse s)) := by
  rw [Tree.clause?, first?_parse s (by decide)]
  rfl

theorem ofNodeKind?_nodeKind (k : TypeKind) : TypeKind.ofNodeKind? k.nodeKind = some k := by
  cases k <;> decide

/-- The declaration of a node. -/
theorem TypeNode.declares {x : Syntax.Node} {k : TypeKind} {e : Extent} (h : TypeNode x k e) (s : String) :
    ((TypeKind.ofNodeKind? x.kind).map fun kind => (⟨kind, x.start, x.stop,
      (x.child? "name").map fun m => ⟨m.start, (parse s).textOf m⟩⟩ : Declaration)) =
      some ⟨k, x.start, x.stop, some ⟨e.start, e.textIn (Utf8.encode s)⟩⟩ := by
  rw [h.kind, ofNodeKind?_nodeKind, h.name]
  rfl

theorem declaration?_parse (s : String) :
    (parse s).declaration? = ((sights s).find? fun n => (TypeKind.all.map TypeKind.nodeKind).contains n.kind).bind
      fun x => (TypeKind.ofNodeKind? x.kind).map fun kind => ⟨kind, x.start, x.stop,
        (x.child? "name").map fun m => ⟨m.start, (parse s).textOf m⟩⟩ := by
  rw [Tree.declaration?, first?_parse s (by decide)]

theorem rel_find? {α β : Type} {R : α → β → Prop} {xs : List α} {ys : List β} {p : α → Bool} {q : β → Bool}
    (h : List.Forall₂ R xs ys) (hpq : ∀ {x y}, R x y → q y = p x) :
    Option.Rel (fun x y => R x y ∧ p x) (xs.find? p) (ys.find? q) := by
  induction h with
  | nil => exact .none
  | @cons x y xs ys hxy _ ih =>
      rw [List.find?_cons, List.find?_cons, hpq hxy]
      cases hp : p x with
      | true => exact .some ⟨hxy, hp⟩
      | false => exact ih

variable {L : Likeness} {s s' : String}

/-- The first clauses of two texts are alike. -/
theorem rel_clause? (h : List.Forall₂ L.Shown (sights s) (sights s')) :
    Option.Rel (fun c c' => ∃ n e n' e', L.clause n e n' e' ∧ Heads (Utf8.encode s) c n e ∧ Heads (Utf8.encode s') c' n' e')
      (parse s).clause? (parse s').clause? := by
  have hfind := rel_find? (p := fun n => [Tree.clauseKind].contains n.kind)
    (q := fun n => [Tree.clauseKind].contains n.kind) h fun hxy => by rw [hxy.kind_eq]
  rw [clause?_parse, clause?_parse]
  generalize (sights s).find? _ = a at hfind
  generalize (sights s').find? _ = b at hfind
  cases hfind with
  | none => exact .none
  | some hxy =>
      obtain ⟨hshown, hkind⟩ := hxy
      obtain ⟨n, e, n', e', hcl, hx, hy⟩ := hshown.exists_clause (by simpa using hkind)
      exact .some ⟨n, e, n', e', hcl, hx.heads s, hy.heads s'⟩

/-- What two texts declare first is alike, also if the second one shows clauses in front. -/
theorem rel_declaration? (extra : List Syntax.Node) {l : List Syntax.Node} (hsights : sights s' = extra ++ l)
    (hextra : ∀ x ∈ extra, x.kind = Tree.clauseKind) (h : List.Forall₂ L.Shown (sights s) l) :
    Option.Rel (fun d d' => ∃ e e', L.typeName e e' ∧ d.name = some ⟨e.start, e.textIn (Utf8.encode s)⟩ ∧
        d'.name = some ⟨e'.start, e'.textIn (Utf8.encode s')⟩)
      (parse s).declaration? (parse s').declaration? := by
  have hskip : extra.find? (fun n => (TypeKind.all.map TypeKind.nodeKind).contains n.kind) = none :=
    List.find?_eq_none.mpr fun x hx => by rw [hextra x hx]; decide
  have hfind := rel_find? (p := fun n => (TypeKind.all.map TypeKind.nodeKind).contains n.kind)
    (q := fun n => (TypeKind.all.map TypeKind.nodeKind).contains n.kind) h fun hxy => by rw [hxy.kind_eq]
  rw [declaration?_parse, declaration?_parse, hsights, List.find?_append, hskip, Option.none_or]
  generalize (sights s).find? _ = a at hfind
  generalize l.find? _ = b at hfind
  cases hfind with
  | none => exact .none
  | some hxy =>
      obtain ⟨hshown, hkind⟩ := hxy
      obtain ⟨k, e, e', hty, hx, hy⟩ := hshown.exists_type fun hcl => by
        rw [hcl] at hkind
        exact absurd hkind (by decide)
      rw [Option.bind_some, Option.bind_some, hx.declares s, hy.declares s']
      exact .some ⟨e, e', hty, rfl, rfl⟩

end Namesake.Php
