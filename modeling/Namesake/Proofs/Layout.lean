import Namesake.Proofs.Front
import Namesake.Proofs.Utf8

/-! Trees that lie well in their text. `WellFormed` says what is asked of a parser: nodes lie inside their
parents, siblings follow each other, nodes begin and end between characters, the names of types are leaves
with some octets, and a namespace clause begins with its keyword, then its name, then its body, in which every type
below it stands. The lemmas say where the name of a type lies seen from a clause and from the text before
the code. -/

namespace Namesake.Syntax

open Text

def typeKinds : List String := TypeKind.all.map TypeKind.nodeKind

namespace Node

/-- What is asked of one node and its children, in a text with the characters `cs`. -/
structure WellPlaced (cs : List Char) (n : Node) : Prop where
  ordered : n.start ≤ n.stop
  /-- It begins and ends between characters. -/
  borders : Utf8.IsBorder cs n.start ∧ Utf8.IsBorder cs n.stop
  inside : ∀ c ∈ n.children, n.start ≤ c.start ∧ c.stop ≤ n.stop
  apart : n.children.Pairwise fun a b => a.stop ≤ b.start
  nameLeaf : n.kind ∈ typeKinds → ∀ name ∈ n.child? "name", name.children = [] ∧ name.start < name.stop
  frontLeaf : n.kind = Tree.textKind ∨ n.kind = Tree.tagKind → n.children = []
  /-- A clause begins with its keyword, which is neither its name nor its body. -/
  keyword : n.kind = Tree.clauseKind → ∃ k ∈ n.children.head?, k.field = none
  nameFirst : n.kind = Tree.clauseKind →
    ∀ name ∈ n.child? "name", ∀ body ∈ n.child? "body", name.stop ≤ body.start
  typesInBody : n.kind = Tree.clauseKind → ∀ d ∈ n.preorder, d.kind ∈ typeKinds →
    ∃ body ∈ n.child? "body", body.start ≤ d.start ∧ d.stop ≤ body.stop

instance (cs : List Char) (n : Node) : Decidable (n.WellPlaced cs) :=
  decidable_of_iff
    ((n.start ≤ n.stop ∧ Utf8.IsBorder cs n.start ∧ Utf8.IsBorder cs n.stop) ∧
      ((∀ c ∈ n.children, n.start ≤ c.start ∧ c.stop ≤ n.stop) ∧
        n.children.Pairwise fun a b => a.stop ≤ b.start) ∧
      ((n.kind ∈ typeKinds → ∀ name ∈ n.child? "name", name.children.isEmpty ∧ name.start < name.stop) ∧
        (n.kind = Tree.textKind ∨ n.kind = Tree.tagKind → n.children.isEmpty)) ∧
      (n.kind = Tree.clauseKind → (∃ k ∈ n.children.head?, k.field = none) ∧
        (∀ name ∈ n.child? "name", ∀ body ∈ n.child? "body", name.stop ≤ body.start) ∧
        ∀ d ∈ n.preorder, d.kind ∈ typeKinds →
          ∃ body ∈ n.child? "body", body.start ≤ d.start ∧ d.stop ≤ body.stop)) <| by
    simp only [List.isEmpty_iff]
    constructor
    · rintro ⟨⟨hordered, hborders⟩, ⟨hinside, hapart⟩, ⟨hname, hfront⟩, hclause⟩
      exact ⟨hordered, hborders, hinside, hapart, hname, hfront, fun h => (hclause h).1,
        fun h => (hclause h).2.1, fun h => (hclause h).2.2⟩
    · intro h
      exact ⟨⟨h.ordered, h.borders⟩, ⟨h.inside, h.apart⟩, ⟨h.nameLeaf, h.frontLeaf⟩,
        fun hk => ⟨h.keyword hk, h.nameFirst hk, h.typesInBody hk⟩⟩

end Node

/-- What is asked of the tree of a text. -/
structure Tree.WellFormed (t : Tree) (cs : List Char) : Prop where
  source : t.source = Utf8.encodeChars cs
  program : t.root.kind = "program"
  within : t.root.stop ≤ t.source.length
  placed : ∀ n ∈ t.root.preorder, n.WellPlaced cs

instance (t : Tree) (cs : List Char) : Decidable (t.WellFormed cs) :=
  decidable_of_iff
    ((t.source = Utf8.encodeChars cs ∧ t.root.kind = "program") ∧ t.root.stop ≤ t.source.length ∧
      ∀ n ∈ t.root.preorder, n.WellPlaced cs)
    ⟨fun ⟨⟨hsource, hprogram⟩, hwithin, hplaced⟩ => ⟨hsource, hprogram, hwithin, hplaced⟩,
      fun h => ⟨⟨h.source, h.program⟩, h.within, h.placed⟩⟩

namespace Node

variable {cs : List Char}

theorem nested_of_wellPlaced {n : Node} (h : ∀ x ∈ n.preorder, x.WellPlaced cs) : n.Nested where
  inside x hx c hc := by
    have hin := (h x hx).inside c hc
    exact ⟨hin.1, (h c (mem_preorder_trans (mem_preorder_of_child hc) hx)).ordered, hin.2⟩
  ordered x hx := (h x hx).apart

theorem start_le_of_mem_preorder {n d : Node} (h : ∀ x ∈ n.preorder, x.WellPlaced cs) (hd : d ∈ n.preorder) :
    n.start ≤ d.start ∧ d.stop ≤ n.stop := by
  obtain ⟨hlow, -, hhigh⟩ := (nested_of_wellPlaced h).within (h n n.mem_preorder_self).ordered hd
  exact ⟨hlow, hhigh⟩

/-- The nodes lie apart. -/
def Apart (a b : Node) : Prop := a.stop ≤ b.start ∨ b.stop ≤ a.start

instance : Std.Symm Apart := ⟨fun _ _ => Or.symm⟩

theorem WellPlaced.apart_of_ne {n c d : Node} (h : n.WellPlaced cs) (hc : c ∈ n.children) (hd : d ∈ n.children)
    (hne : c ≠ d) : Apart c d := by
  have hapart : n.children.Pairwise Apart := h.apart.imp Or.inl
  exact hapart.forall hc hd hne

/-- Of two nodes of a tree one is below the other or they lie apart. -/
theorem below_or_apart {n a b : Node} (h : ∀ x ∈ n.preorder, x.WellPlaced cs) (ha : a ∈ n.preorder)
    (hb : b ∈ n.preorder) : a ∈ b.preorder ∨ b ∈ a.preorder ∨ Apart a b := by
  induction n using child_induction with
  | h n ih =>
      rcases mem_preorder_iff.mp ha with rfl | ⟨c, hc, hac⟩
      · exact .inr (.inl hb)
      rcases mem_preorder_iff.mp hb with rfl | ⟨d, hd, hbd⟩
      · exact .inl ha
      have hplaced (k : Node) (hk : k ∈ n.children) : ∀ x ∈ k.preorder, x.WellPlaced cs :=
        fun x hx => h x (mem_preorder_trans hx (mem_preorder_of_child hk))
      by_cases hcd : c = d
      · subst hcd
        exact ih c hc (hplaced c hc) hac hbd
      · have hcin := start_le_of_mem_preorder (hplaced c hc) hac
        have hdin := start_le_of_mem_preorder (hplaced d hd) hbd
        refine .inr (.inr ?_)
        rcases (h n n.mem_preorder_self).apart_of_ne hc hd hcd with hlt | hlt
        · left
          calc a.stop ≤ c.stop := hcin.2
            _ ≤ d.start := hlt
            _ ≤ b.start := hdin.1
        · right
          calc b.stop ≤ d.stop := hdin.2
            _ ≤ c.start := hlt
            _ ≤ a.start := hcin.1

/-- A child by name as a node of the tree. -/
theorem mem_preorder_of_child? {n c : Node} {name : String} (h : n.child? name = some c) : c ∈ n.preorder :=
  mem_preorder_of_child (mem_of_child? h).1

theorem children_ne_nil_of_clause {n : Node} (h : n.WellPlaced cs) (hkind : n.kind = Tree.clauseKind) :
    n.children ≠ [] := by
  obtain ⟨k, hk, -⟩ := h.keyword hkind
  intro hnil
  rw [hnil] at hk
  cases hk

/-- The header of a clause lies in the clause, ends between characters, and lies in front of the body. -/
theorem headerStop_placed {n : Node} (h : ∀ x ∈ n.preorder, x.WellPlaced cs) (hkind : n.kind = Tree.clauseKind) :
    (n.start ≤ Tree.headerStop n ∧ Tree.headerStop n ≤ n.stop) ∧ Utf8.IsBorder cs (Tree.headerStop n) ∧
      ∀ body ∈ n.child? "body", Tree.headerStop n ≤ body.start := by
  have hn := h n n.mem_preorder_self
  have hchild (c : Node) (hc : c ∈ n.children) : n.start ≤ c.stop ∧ c.stop ≤ n.stop ∧ Utf8.IsBorder cs c.stop := by
    have hplaced := h c (mem_preorder_of_child hc)
    have hin := hn.inside c hc
    exact ⟨hin.1.trans hplaced.ordered, hin.2, hplaced.borders.2⟩
  cases hbody : n.child? "body" with
  | none =>
      have hstop : Tree.headerStop n = n.stop := by simp only [Tree.headerStop, hbody]
      rw [hstop]
      exact ⟨⟨hn.ordered, Nat.le_refl _⟩, hn.borders.2, fun _ hb => nomatch hb⟩
  | some body =>
      cases hname : n.child? "name" with
      | some name =>
          have hstop : Tree.headerStop n = name.stop := by simp only [Tree.headerStop, hbody, hname]
          obtain ⟨hlow, hhigh, hborder⟩ := hchild name (mem_of_child? hname).1
          rw [hstop]
          refine ⟨⟨hlow, hhigh⟩, hborder, fun b hb => hn.nameFirst hkind name hname b ?_⟩
          rw [hbody]
          exact hb
      | none =>
          obtain ⟨k, hk, hfield⟩ := hn.keyword hkind
          obtain ⟨rest, hrest⟩ : ∃ rest, n.children = k :: rest := by
            rw [Option.mem_def, List.head?_eq_some_iff] at hk
            exact hk
          have hstop : Tree.headerStop n = k.stop := by
            simp only [Tree.headerStop, hbody, hname, hrest, List.head?_cons, Option.map_some, Option.getD_some]
          obtain ⟨hlow, hhigh, hborder⟩ := hchild k (hrest ▸ List.mem_cons_self)
          rw [hstop]
          refine ⟨⟨hlow, hhigh⟩, hborder, ?_⟩
          rintro b ⟨⟩
          obtain ⟨hmem, hbfield⟩ := mem_of_child? hbody
          rw [hrest, List.mem_cons] at hmem
          rcases hmem with rfl | hmem
          · rw [hfield] at hbfield
            cases hbfield
          · have hapart := hn.apart
            rw [hrest] at hapart
            exact (List.pairwise_cons.mp hapart).1 body hmem

theorem ne_of_kinds {n d : Node} (hn : n.kind = Tree.clauseKind) (hd : d.kind ∈ typeKinds) : n ≠ d := by
  rintro rfl
  rw [hn] at hd
  exact absurd hd (by decide)

/-- The name of a type does not touch the header of a clause. -/
theorem name_clear_of_header {root n d m : Node} (h : ∀ x ∈ root.preorder, x.WellPlaced cs)
    (hn : n ∈ root.preorder) (hnkind : n.kind = Tree.clauseKind) (hd : d ∈ root.preorder)
    (hdkind : d.kind ∈ typeKinds) (hm : d.child? "name" = some m) :
    Tree.headerStop n ≤ m.start ∨ m.stop ≤ n.start := by
  have hne := ne_of_kinds hnkind hdkind
  have hnplaced : ∀ x ∈ n.preorder, x.WellPlaced cs := fun x hx => h x (mem_preorder_trans hx hn)
  have hdplaced : ∀ x ∈ d.preorder, x.WellPlaced cs := fun x hx => h x (mem_preorder_trans hx hd)
  obtain ⟨⟨-, hstop⟩, -, hbody⟩ := headerStop_placed hnplaced hnkind
  have hmd := (mem_of_child? hm).1
  have hin := (h d hd).inside m hmd
  rcases below_or_apart h hn hd with hbelow | hbelow | hapart
  · -- The clause stands in a child of the declaration other than its name, which is a leaf.
    rcases mem_preorder_iff.mp hbelow with rfl | ⟨c, hc, hnc⟩
    · exact absurd rfl hne
    have hcplaced : ∀ x ∈ c.preorder, x.WellPlaced cs :=
      fun x hx => hdplaced x (mem_preorder_trans hx (mem_preorder_of_child hc))
    have hcm : c ≠ m := by
      rintro rfl
      have hleaf := ((h d hd).nameLeaf hdkind c hm).1
      rcases mem_preorder_iff.mp hnc with rfl | ⟨k, hk, -⟩
      · exact children_ne_nil_of_clause (h n hn) hnkind hleaf
      · rw [hleaf] at hk
        cases hk
    have hcin := start_le_of_mem_preorder hcplaced hnc
    rcases (h d hd).apart_of_ne hc hmd hcm with hlt | hlt
    · left
      calc Tree.headerStop n ≤ n.stop := hstop
        _ ≤ c.stop := hcin.2
        _ ≤ m.start := hlt
    · exact .inr (hlt.trans hcin.1)
  · obtain ⟨body, hb, hlow, -⟩ := (h n hn).typesInBody hnkind d hbelow hdkind
    left
    calc Tree.headerStop n ≤ body.start := hbody body hb
      _ ≤ d.start := hlow
      _ ≤ m.start := hin.1
  · rcases hapart with hlt | hlt
    · left
      calc Tree.headerStop n ≤ n.stop := hstop
        _ ≤ d.start := hlt
        _ ≤ m.start := hin.1
    · exact .inr (hin.2.trans hlt)

end Node

namespace Tree

theorem WellFormed.orderly {t : Tree} {cs : List Char} (ht : t.WellFormed cs) : t.Orderly where
  program := ht.program
  ordered := (Node.nested_of_wellPlaced ht.placed).before
  leaves n hn hcode := (ht.placed n hn).frontLeaf (Node.not_isCode_iff.mp hcode)

/-- The text before the code ends between characters and in front of every type. -/
theorem WellFormed.leading_le {t : Tree} {cs : List Char} (ht : t.WellFormed cs) {e : Nat}
    (h : t.leading? = some e) :
    Utf8.IsBorder cs e ∧ ∀ d ∈ t.root.preorder, d.kind ∈ typeKinds → e ≤ d.start := by
  have he := leading?_eq_some_iff.mp h
  refine ⟨?_, fun d hd hkind => ht.orderly.stop_le_type he hd hkind⟩
  obtain ⟨front, l, back, hchildren, rfl, -⟩ := he.exists_split
  have hl : l ∈ t.root.children := hchildren ▸ List.mem_append_right _ List.mem_cons_self
  exact (ht.placed l (Node.mem_preorder_of_child hl)).borders.2

end Tree

end Namesake.Syntax
