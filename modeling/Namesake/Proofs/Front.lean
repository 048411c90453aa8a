import Namesake.Correction
import Namesake.Proofs.Traversal

/-! The text in front of the code and what is put behind it. `FrontEnd` says where the front of a list of nodes ends:
behind the first tag if only text stands before it, else behind the last of the texts that begin the list. In an orderly
tree no code begins before that, at any depth, so a namespace that is put there stands in front of every type. -/

namespace Namesake.Syntax

open Text

/-- The node is neither text nor a tag. -/
def Node.IsCode (n : Node) : Prop :=
  n.kind ≠ Tree.textKind ∧ n.kind ≠ Tree.tagKind

instance : DecidablePred Node.IsCode := fun _ => inferInstanceAs (Decidable (_ ∧ _))

theorem Node.not_isCode_iff {n : Node} : ¬ n.IsCode ↔ n.kind = Tree.textKind ∨ n.kind = Tree.tagKind := by
  rw [IsCode, not_and_or, not_not, not_not]

namespace Tree

/-! ### The end of the front -/

/-- The front of the nodes ends at this offset: with the first tag, if only text stands before it, or with
the last of the first texts, if no tag follows it. -/
inductive FrontEnd : List Node → Nat → Prop
  | tag {texts rest : List Node} {l : Node} (htexts : ∀ x ∈ texts, x.kind = textKind) (hl : l.kind = tagKind) :
    FrontEnd (texts ++ l :: rest) l.stop
  | text {texts rest : List Node} {l : Node} (htexts : ∀ x ∈ texts, x.kind = textKind) (hl : l.kind = textKind)
    (hrest : ∀ x ∈ rest.head?, x.IsCode) : FrontEnd (texts ++ l :: rest) l.stop

variable {n : Node} {ns : List Node} {last : Option Nat} {e : Nat}

/-- The front ends with its last node, and none of its nodes is code. -/
theorem FrontEnd.exists_split (h : FrontEnd ns e) :
    ∃ front l back, ns = front ++ l :: back ∧ l.stop = e ∧ ∀ x ∈ front ++ [l], ¬ x.IsCode := by
  have hfront {texts : List Node} {l : Node} (htexts : ∀ x ∈ texts, x.kind = textKind) (hl : ¬ l.IsCode) :
      ∀ x ∈ texts ++ [l], ¬ x.IsCode := by
    intro x hx
    rcases List.mem_append.mp hx with hx | hx
    · exact Node.not_isCode_iff.mpr (.inl (htexts x hx))
    · rw [List.mem_singleton.mp hx]
      exact hl
  cases h with
  | tag htexts hl => exact ⟨_, _, _, rfl, rfl, hfront htexts (Node.not_isCode_iff.mpr (.inr hl))⟩
  | text htexts hl => exact ⟨_, _, _, rfl, rfl, hfront htexts (Node.not_isCode_iff.mpr (.inl hl))⟩

theorem not_frontEnd_nil : ¬ FrontEnd [] e := by
  intro h
  obtain ⟨front, l, back, hnil, -⟩ := h.exists_split
  exact List.append_ne_nil_of_right_ne_nil front (List.cons_ne_nil l back) hnil.symm

theorem frontEnd_cons_iff : FrontEnd (n :: ns) e ↔
    n.kind = tagKind ∧ n.stop = e ∨
      n.kind = textKind ∧ (FrontEnd ns e ∨ n.stop = e ∧ ∀ x ∈ ns.head?, x.IsCode) := by
  constructor
  · intro h
    generalize hl : n :: ns = l at h
    cases h with
    | @tag texts rest l htexts htag =>
        cases texts with
        | nil =>
            obtain ⟨rfl, rfl⟩ := List.cons.inj hl
            exact .inl ⟨htag, rfl⟩
        | cons m texts =>
            obtain ⟨rfl, rfl⟩ := List.cons.inj hl
            obtain ⟨hn, htexts⟩ := List.forall_mem_cons.mp htexts
            exact .inr ⟨hn, .inl (.tag htexts htag)⟩
    | @text texts rest l htexts htext hrest =>
        cases texts with
        | nil =>
            obtain ⟨rfl, rfl⟩ := List.cons.inj hl
            exact .inr ⟨htext, .inr ⟨rfl, hrest⟩⟩
        | cons m texts =>
            obtain ⟨rfl, rfl⟩ := List.cons.inj hl
            obtain ⟨hn, htexts⟩ := List.forall_mem_cons.mp htexts
            exact .inr ⟨hn, .inl (.text htexts htext hrest)⟩
  · rintro (⟨hn, rfl⟩ | ⟨hn, h | ⟨rfl, hrest⟩⟩)
    · exact .tag (List.forall_mem_nil _) hn
    · cases h with
      | tag htexts htag => exact .tag (List.forall_mem_cons.mpr ⟨hn, htexts⟩) htag
      | text htexts htext hrest => exact .text (List.forall_mem_cons.mpr ⟨hn, htexts⟩) htext hrest
    · exact .text (List.forall_mem_nil _) hn hrest

/-- What the search for the end carries along is its answer if no more of the front follows. -/
theorem leadingStop_eq_some_iff :
    leadingStop last ns = some e ↔ FrontEnd ns e ∨ last = some e ∧ ∀ x ∈ ns.head?, x.IsCode := by
  induction ns generalizing last with
  | nil => simp [leadingStop, not_frontEnd_nil]
  | cons n ns ih =>
      rw [leadingStop, frontEnd_cons_iff]
      split_ifs with htag htext
      · simp [htag, Node.IsCode, tagKind, textKind]
      · simp [ih, htext, Node.IsCode, tagKind, textKind]
      · simp [htag, htext, Node.IsCode]

theorem leadingStop_eq_none_iff : leadingStop last ns = none ↔ last = none ∧ ∀ x ∈ ns.head?, x.IsCode := by
  induction ns generalizing last with
  | nil => simp [leadingStop]
  | cons n ns ih =>
      rw [leadingStop]
      split_ifs with htag htext
      · simp [htag, Node.IsCode]
      · simp [ih, htext, Node.IsCode]
      · simp [htag, htext, Node.IsCode]

variable {t : Tree}

theorem leading?_eq_some_iff : t.leading? = some e ↔ FrontEnd t.root.children e := by
  rw [leading?, leadingStop_eq_some_iff]
  simp

theorem leadingSpan?_eq_some_iff {start : Nat} :
    t.leadingSpan? = some (start, e) ↔ start = 0 ∧ FrontEnd t.root.children e := by
  rw [leadingSpan?, Option.map_eq_some_iff]
  constructor
  · rintro ⟨stop, hstop, heq⟩
    obtain ⟨rfl, rfl⟩ := Prod.mk.inj heq
    exact ⟨rfl, leading?_eq_some_iff.mp hstop⟩
  · rintro ⟨rfl, h⟩
    exact ⟨e, leading?_eq_some_iff.mpr h, rfl⟩

/-! ### What follows the front -/

/-- What is asked of a tree that begins with text and tags. -/
structure Orderly (t : Tree) : Prop where
  program : t.root.kind = "program"
  /-- Its children are ordered and have nothing in common: what belongs to one ends before what belongs to a later one
  begins. -/
  ordered : t.root.children.Pairwise Node.Before
  leaves : ∀ n ∈ t.root.preorder, ¬ n.IsCode → n.children = []

/-- Code at any depth begins behind the front. -/
theorem Orderly.stop_le_start (h : t.Orderly) (he : FrontEnd t.root.children e) {c d : Node}
    (hc : c ∈ t.root.children) (hd : d ∈ c.preorder) (hcode : d.IsCode) : e ≤ d.start := by
  obtain ⟨front, l, back, hchildren, rfl, hfront⟩ := he.exists_split
  have hback : c ∈ back := by
    have hmem := hc
    rw [hchildren, List.append_cons, List.mem_append] at hmem
    -- In the front there are only leaves, none of which is code.
    refine hmem.resolve_left fun hc' => ?_
    rcases Node.mem_preorder_iff.mp hd with rfl | ⟨k, hk, -⟩
    · exact hfront d hc' hcode
    · rw [h.leaves c (Node.mem_preorder_of_child hc) (hfront c hc')] at hk
      cases hk
  have hordered := h.ordered
  rw [hchildren] at hordered
  exact (List.pairwise_cons.mp (List.pairwise_append.mp hordered).2.1).1 c hback l l.mem_preorder_self d hd

theorem ne_of_mem_nodeKinds {k : String} (h : k ∈ TypeKind.all.map TypeKind.nodeKind) :
    k ≠ "program" ∧ k ≠ textKind ∧ k ≠ tagKind := by
  revert k
  decide

/-- Types begin behind the front. -/
theorem Orderly.stop_le_type (h : t.Orderly) (he : FrontEnd t.root.children e) {d : Node}
    (hd : d ∈ t.root.preorder) (hkind : d.kind ∈ TypeKind.all.map TypeKind.nodeKind) : e ≤ d.start := by
  obtain ⟨hroot, hcode⟩ := ne_of_mem_nodeKinds hkind
  rcases Node.mem_preorder_iff.mp hd with rfl | ⟨c, hc, hdc⟩
  · exact absurd h.program hroot
  · exact h.stop_le_start he hc hdc hcode

theorem exists_of_declaration? {d : Declaration} (h : t.declaration? = some d) :
    ∃ n ∈ t.root.preorder, n.kind ∈ TypeKind.all.map TypeKind.nodeKind ∧ d.start = n.start := by
  obtain ⟨n, hn, hd⟩ := Option.bind_eq_some_iff.mp h
  obtain ⟨kind, -, rfl⟩ := Option.map_eq_some_iff.mp hd
  obtain ⟨hmem, hkind⟩ := Node.mem_of_first? hn
  exact ⟨n, hmem, hkind, rfl⟩

/-- Without a clause the namespace is put where the front ends, or at the start of the text. -/
theorem fixSpace_of_clause?_eq_none {space : String} (hspace : space ≠ "") (h : t.clause? = none) :
    ∃ c, Corrections.fixSpace t space = .ok (some c) ∧ c.clause = none ∧ c.edit.length = 0 ∧
      c.edit.offset = (t.leadingSpan?.map Prod.snd).getD 0 ∧
      c.edit.replacement = Corrections.insertion space c.edit.offset := by
  refine ⟨_, by rw [Corrections.fixSpace, if_neg hspace, h], rfl, rfl, ?_, rfl⟩
  rw [leadingSpan?, Option.map_map]
  cases t.leading? <;> rfl

theorem isPrefix_insertion_iff (space : String) (offset : Nat) :
    "<?php".toList <+: (Corrections.insertion space offset).toList ↔ offset = 0 := by
  rw [Corrections.insertion]
  by_cases h : offset = 0
  · rw [if_pos h, iff_true_right h, String.toList_append]
    exact (show "<?php".toList <+: "<?php\n".toList by decide).trans (List.prefix_append _ _)
  · rw [if_neg h, iff_false_right h, String.toList_append, String.toList_append]
    -- A statement alone begins a new line.
    intro hprefix
    exact absurd (List.cons_prefix_cons.mp hprefix).1 (by decide)

/-- The front is missing iff the tree begins with code, and is what `FrontEnd` says if there is one; no code among the
children of the root begins before its end. A namespace for a text without a clause is put there, or at the start of the
text: in front of the first type, and behind a new tag iff it stands at the very start. -/
theorem insertion_precedes_code {t : Tree} (h : t.Orderly) :
    (t.leadingSpan? = none ↔ ∀ c ∈ t.root.children.head?, c.IsCode) ∧
    (∀ start stop, t.leadingSpan? = some (start, stop) ↔ start = 0 ∧ FrontEnd t.root.children stop) ∧
    (∀ start stop, t.leadingSpan? = some (start, stop) → ∀ c ∈ t.root.children, c.IsCode → stop ≤ c.start) ∧
    ∀ space, space ≠ "" → t.clause? = none →
      ∃ c, Corrections.fixSpace t space = .ok (some c) ∧ c.clause = none ∧ c.edit.length = 0 ∧
        c.edit.offset = (t.leadingSpan?.map Prod.snd).getD 0 ∧
        (∀ d, t.declaration? = some d → (c.edit.offset : Int) ≤ d.start) ∧
        ("<?php".toList <+: c.edit.replacement.toList ↔ c.edit.offset = 0) := by
  refine ⟨?_, fun _ _ => leadingSpan?_eq_some_iff, fun start stop hspan c hc hcode => ?_, fun space hspace hclause => ?_⟩
  · rw [leadingSpan?, Option.map_eq_none_iff, leading?, leadingStop_eq_none_iff]
    exact and_iff_right rfl
  · exact h.stop_le_start (leadingSpan?_eq_some_iff.mp hspan).2 hc c.mem_preorder_self hcode
  · obtain ⟨c, hc, hnone, hlength, hoffset, hreplacement⟩ := fixSpace_of_clause?_eq_none hspace hclause
    refine ⟨c, hc, hnone, hlength, hoffset, fun d hd => ?_, hreplacement ▸ isPrefix_insertion_iff space c.edit.offset⟩
    obtain ⟨n, hn, hkind, hstart⟩ := exists_of_declaration? hd
    rw [hstart, hoffset, Int.ofNat_le]
    cases hspan : t.leadingSpan? with
    | none => exact Nat.zero_le _
    | some span => exact h.stop_le_type (leadingSpan?_eq_some_iff.mp hspan).2 hn hkind

/-- The tree of a text with markup in front, a function, and a class in the body of the function. -/
def functionBehindMarkup : Tree :=
  ⟨Utf8.encode "<html>\n<?php function f() { class A {} }",
    .mk "program" 0 40 none
      [.mk "text" 0 7 none [], .mk "php_tag" 7 12 none [],
        .mk "function_definition" 13 40 none
          [.mk "compound_statement" 26 40 (some "body")
            [.mk "class_declaration" 28 38 none [.mk "name" 34 35 (some "name") []]]]]⟩

theorem insertion_precedes_code_markup :
    functionBehindMarkup.Orderly ∧ functionBehindMarkup.leadingSpan? = some (0, 12) ∧
      functionBehindMarkup.clause? = none ∧
      ∃ c, Corrections.fixSpace functionBehindMarkup "Acme" = .ok (some c) ∧ c.edit.offset = 12 ∧
        ∀ d, functionBehindMarkup.declaration? = some d → (12 : Int) ≤ d.start := by
  have horderly : functionBehindMarkup.Orderly := ⟨rfl, by decide, by decide⟩
  have hspan : functionBehindMarkup.leadingSpan? = some (0, 12) := by decide
  have hclause : functionBehindMarkup.clause? = none := by
    rw [clause?, Node.first?_eq_find?]
    rfl
  obtain ⟨-, -, -, hinsertion⟩ := insertion_precedes_code horderly
  obtain ⟨c, hc, -, -, hoffset, hbefore, -⟩ := hinsertion "Acme" (by decide) hclause
  rw [hspan] at hoffset
  rw [hoffset] at hbefore
  exact ⟨horderly, hspan, hclause, c, hc, hoffset, hbefore⟩

end Tree

end Namesake.Syntax
