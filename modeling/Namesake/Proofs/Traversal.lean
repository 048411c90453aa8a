import Mathlib.Tactic
import Namesake.Syntax

/-! The nodes of a tree in document order. The search on a stack meets them in this order, so the first
node of some kinds is the first one of `preorder`. In a nested tree, whose nodes lie inside their parents and
behind their siblings, they also begin in this order. -/

namespace Namesake.Syntax.Node

/-- What holds of a node when it holds of its children holds of every node. -/
@[elab_as_elim]
theorem child_induction {P : Node → Prop} (h : ∀ n : Node, (∀ c ∈ n.children, P c) → P n) (n : Node) : P n :=
  h n fun c _ => child_induction h c
termination_by size n
decreasing_by exact size_lt_of_mem_children ‹_›

theorem mem_preorder_self (n : Node) : n ∈ n.preorder := by
  rw [preorder_eq_cons]
  exact List.mem_cons_self

theorem mem_preorder_iff {d n : Node} : d ∈ n.preorder ↔ d = n ∨ ∃ c ∈ n.children, d ∈ c.preorder := by
  rw [preorder_eq_cons, List.mem_cons, List.mem_flatMap]

theorem mem_preorder_of_child {c n : Node} (h : c ∈ n.children) : c ∈ n.preorder :=
  mem_preorder_iff.mpr (.inr ⟨c, h, c.mem_preorder_self⟩)

theorem mem_preorder_trans {a b c : Node} (hab : a ∈ b.preorder) (hbc : b ∈ c.preorder) : a ∈ c.preorder := by
  induction c using child_induction with
  | h c ih =>
      rcases mem_preorder_iff.mp hbc with rfl | ⟨k, hk, hbk⟩
      · exact hab
      · exact mem_preorder_iff.mpr (.inr ⟨k, hk, ih k hk hbk⟩)

/-- The search on a stack finds the first node that is wanted in document order. -/
theorem firstIn_eq_find? (wanted : String → Bool) (stack : List Node) :
    firstIn wanted stack = (stack.flatMap preorder).find? fun n => wanted n.kind := by
  induction stack using firstIn.induct wanted with
  | case1 => rw [firstIn_nil, List.flatMap_nil, List.find?_nil]
  | case2 n rest h =>
      simp only [firstIn_cons, h, if_true, List.flatMap_cons, preorder_eq_cons, List.cons_append, List.find?_cons]
  | case3 n rest h ih =>
      simp only [firstIn_cons, h, ih, List.flatMap_cons, preorder_eq_cons, List.cons_append, List.find?_cons,
        List.flatMap_append]
      rfl

theorem first?_eq_find? (kinds : List String) (n : Node) :
    n.first? kinds = n.preorder.find? fun m => kinds.contains m.kind := by
  rw [first?, firstIn_eq_find?, List.flatMap_singleton]

theorem mem_of_first? {kinds : List String} {n d : Node} (h : n.first? kinds = some d) :
    d ∈ n.preorder ∧ d.kind ∈ kinds := by
  rw [first?_eq_find?] at h
  have hkind := List.find?_some h
  exact ⟨List.mem_of_find?_eq_some h, List.contains_iff_mem.mp hkind⟩

theorem mem_of_child? {n c : Node} {name : String} (h : n.child? name = some c) :
    c ∈ n.children ∧ c.field = some name := by
  have hfield := List.find?_some h
  exact ⟨List.mem_of_find?_eq_some h, of_decide_eq_true hfield⟩

/-! ### Nodes in their parents -/

/-- All that belongs to `a` ends before anything that belongs to `b` begins. -/
def Before (a b : Node) : Prop :=
  ∀ x ∈ a.preorder, ∀ y ∈ b.preorder, x.stop ≤ y.start

instance : DecidableRel Before := fun a b =>
  inferInstanceAs (Decidable (∀ x ∈ a.preorder, ∀ y ∈ b.preorder, x.stop ≤ y.start))

/-- In the tree of a node the children lie inside their parents and follow each other. -/
structure Nested (n : Node) : Prop where
  inside : ∀ x ∈ n.preorder, ∀ c ∈ x.children, x.start ≤ c.start ∧ c.start ≤ c.stop ∧ c.stop ≤ x.stop
  ordered : ∀ x ∈ n.preorder, x.children.Pairwise fun a b => a.stop ≤ b.start

namespace Nested

variable {n c d : Node}

theorem of_mem (h : n.Nested) (hd : d ∈ n.preorder) : d.Nested where
  inside x hx := h.inside x (mem_preorder_trans hx hd)
  ordered x hx := h.ordered x (mem_preorder_trans hx hd)

theorem within (h : n.Nested) (hn : n.start ≤ n.stop) (hd : d ∈ n.preorder) :
    n.start ≤ d.start ∧ d.start ≤ d.stop ∧ d.stop ≤ n.stop := by
  induction n using child_induction with
  | h n ih =>
      rcases mem_preorder_iff.mp hd with rfl | ⟨c, hc, hdc⟩
      · exact ⟨Nat.le_refl _, hn, Nat.le_refl _⟩
      · obtain ⟨hstart, hrange, hstop⟩ := h.inside n n.mem_preorder_self c hc
        obtain ⟨hlow, hd, hhigh⟩ := ih c hc (h.of_mem (mem_preorder_of_child hc)) hrange hdc
        exact ⟨hstart.trans hlow, hd, hhigh.trans hstop⟩

theorem within_child (h : n.Nested) (hc : c ∈ n.children) (hd : d ∈ c.preorder) :
    c.start ≤ d.start ∧ d.start ≤ d.stop ∧ d.stop ≤ c.stop :=
  (h.of_mem (mem_preorder_of_child hc)).within (h.inside n n.mem_preorder_self c hc).2.1 hd

theorem before (h : n.Nested) : n.children.Pairwise Before := by
  refine (h.ordered n n.mem_preorder_self).imp_of_mem fun ha hb hle x hx y hy => ?_
  calc x.stop ≤ _ := (h.within_child ha hx).2.2
    _ ≤ _ := hle
    _ ≤ y.start := (h.within_child hb hy).1

/-- In document order the nodes begin one after the other. -/
theorem pairwise_start (h : n.Nested) : n.preorder.Pairwise fun a b => a.start ≤ b.start := by
  induction n using child_induction with
  | h n ih =>
      rw [preorder_eq_cons, List.pairwise_cons, List.pairwise_flatMap]
      refine ⟨fun d hd => ?_, fun c hc => ih c hc (h.of_mem (mem_preorder_of_child hc)), ?_⟩
      · obtain ⟨c, hc, hdc⟩ := List.mem_flatMap.mp hd
        exact (h.inside n n.mem_preorder_self c hc).1.trans (h.within_child hc hdc).1
      · refine h.before.imp_of_mem fun ha _ hbefore x hx y hy => ?_
        exact (h.within_child ha hx).2.1.trans (hbefore x hx y hy)

end Nested

end Namesake.Syntax.Node
