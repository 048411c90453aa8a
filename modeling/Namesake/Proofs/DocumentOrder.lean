import Mathlib.Logic.Relation
import Namesake.Proofs.Traversal

/-! The search for a node as a loop over a stack. `Turn` is one turn of the loop: it takes the node on top away and
pushes its children, the last one first. What the stack holds is always the rest of the document order (`ahead`), so
every run comes to an end and leaves the first node of the wanted kinds on top. Addresses tell the nodes of a tree
apart; in their order the node that is found is the first one, and none of its ancestors is wanted. -/

namespace Namesake.Syntax.Node

open Relation

variable {kinds : List String} {n d : Node}

/-! ### Addresses -/

/-- The node at an address, which has the number of a child for every step down. -/
def at? : Node → List Nat → Option Node
  | n, [] => some n
  | n, i :: address => n.children[i]?.bind fun c => c.at? address

@[simp] theorem at?_nil (n : Node) : n.at? [] = some n := rfl

@[simp] theorem at?_cons (n : Node) (i : Nat) (address : List Nat) :
    n.at? (i :: address) = n.children[i]?.bind fun c => c.at? address := rfl

theorem mem_preorder_of_at? {address : List Nat} (h : n.at? address = some d) : d ∈ n.preorder := by
  induction address generalizing n with
  | nil =>
      obtain rfl := Option.some.inj h
      exact n.mem_preorder_self
  | cons i address ih =>
      obtain ⟨c, hc, hd⟩ := Option.bind_eq_some_iff.mp h
      exact mem_preorder_iff.mpr (.inr ⟨c, List.mem_of_getElem? hc, ih hd⟩)

section

variable {front back : List Node} {c : Node}

theorem at?_length_cons (h : n.children = front ++ c :: back) (address : List Nat) :
    n.at? (front.length :: address) = c.at? address := by
  rw [at?_cons, h, List.getElem?_append_right (Nat.le_refl _), Nat.sub_self, List.getElem?_cons_zero, Option.bind_some]

theorem exists_mem_of_lt (h : n.children = front ++ c :: back) {i : Nat} (hi : i < front.length) {address : List Nat}
    (hd : n.at? (i :: address) = some d) : ∃ b ∈ front, d ∈ b.preorder := by
  rw [at?_cons, h, List.getElem?_append_left hi] at hd
  obtain ⟨b, hb, hd⟩ := Option.bind_eq_some_iff.mp hd
  exact ⟨b, List.mem_of_getElem? hb, mem_preorder_of_at? hd⟩

end

/-- The first node with a property in document order has the least address. -/
theorem exists_least_address {p : Node → Bool} (h : n.preorder.find? p = some d) :
    ∃ address, n.at? address = some d ∧
      ∀ other m, n.at? other = some m → p m → other = address ∨ List.Lex (· < ·) address other := by
  induction n using child_induction with
  | h n ih =>
      rw [preorder_eq_cons, List.find?_cons] at h
      cases hn : p n with
      | true =>
          rw [hn] at h
          refine ⟨[], h, fun other _ _ _ => ?_⟩
          cases other with
          | nil => exact .inl rfl
          | cons => exact .inr .nil
      | false =>
          rw [hn] at h
          dsimp only at h
          rw [List.find?_flatMap, List.findSome?_eq_some_iff] at h
          obtain ⟨front, c, back, hchildren, hd, hfront⟩ := h
          obtain ⟨address, haddress, hleast⟩ := ih c (hchildren ▸ List.mem_append_right _ List.mem_cons_self) hd
          refine ⟨front.length :: address, (at?_length_cons hchildren address).trans haddress, ?_⟩
          rintro (_ | ⟨i, other⟩) m hm hp
          · obtain rfl := Option.some.inj hm
            rw [hn] at hp
            cases hp
          rcases Nat.lt_trichotomy i front.length with hlt | rfl | hlt
          · -- Below the children in front of `c` nothing has the property.
            obtain ⟨b, hb, hmb⟩ := exists_mem_of_lt hchildren hlt hm
            exact absurd hp (List.find?_eq_none.mp (hfront b hb) m hmb)
          · rw [at?_length_cons hchildren] at hm
            exact (hleast other m hm hp).imp (congrArg _) .cons
          · exact .inr (.rel hlt)

/-! ### The loop -/

/-- One turn of the search for a node of the kinds, on a stack whose top is its last node: the node on top
is not wanted, and its children take its place, the first one on top. -/
inductive Turn (kinds : List String) : List Node → List Node → Prop
  | descend {n : Node} {rest : List Node} (h : n.kind ∉ kinds) :
    Turn kinds (rest ++ [n]) (rest ++ n.children.reverse)

/-- The nodes that a search has not met yet, in document order. -/
def ahead (stack : List Node) : List Node :=
  stack.reverse.flatMap preorder

theorem ahead_concat (rest : List Node) (n : Node) :
    ahead (rest ++ [n]) = n :: ahead (rest ++ n.children.reverse) := by
  calc ahead (rest ++ [n]) = n.preorder ++ rest.reverse.flatMap preorder := by
        rw [ahead, List.reverse_append, List.reverse_singleton, List.singleton_append, List.flatMap_cons]
    _ = n :: (n.children.flatMap preorder ++ rest.reverse.flatMap preorder) := by
        rw [preorder_eq_cons, List.cons_append]
    _ = n :: ahead (rest ++ n.children.reverse) := by
        rw [ahead, List.reverse_append, List.reverse_reverse, List.flatMap_append]

/-- A turn meets one node, which is not wanted. -/
theorem Turn.ahead_eq {stack next : List Node} (h : Turn kinds stack next) :
    ∃ n, n.kind ∉ kinds ∧ ahead stack = n :: ahead next := by
  cases h with
  | descend h => exact ⟨_, h, ahead_concat _ _⟩

theorem turn_wellFounded (kinds : List String) : WellFounded fun next stack => Turn kinds stack next := by
  refine Subrelation.wf (r := fun next stack => (ahead next).length < (ahead stack).length) ?_
    (InvImage.wf (fun stack => (ahead stack).length) Nat.lt_wfRel.wf)
  intro next stack h
  obtain ⟨n, -, hahead⟩ := h.ahead_eq
  rw [hahead]
  exact Nat.lt_succ_self _

/-- What a run has met and what is ahead of it make up the document order, and nothing that it has met is wanted. -/
theorem exists_met {stack : List Node} (h : ReflTransGen (Turn kinds) [n] stack) :
    ∃ met, n.preorder = met ++ ahead stack ∧ ∀ m ∈ met, m.kind ∉ kinds := by
  induction h with
  | refl => exact ⟨[], by simp [ahead], List.forall_mem_nil _⟩
  | tail _ hturn ih =>
      obtain ⟨met, hmet, hnot⟩ := ih
      obtain ⟨k, hk, hahead⟩ := hturn.ahead_eq
      refine ⟨met ++ [k], by rw [hmet, hahead, List.append_assoc, List.singleton_append], fun m hm => ?_⟩
      rcases List.mem_append.mp hm with hm | hm
      · exact hnot m hm
      · rw [List.mem_singleton.mp hm]
        exact hk

/-- A stack on which no turn is left is empty or has a wanted node on top. -/
theorem getLast?_eq_find?_ahead {stack : List Node} (h : ∀ next, ¬ Turn kinds stack next) :
    stack.getLast? = (ahead stack).find? fun m => kinds.contains m.kind := by
  rcases stack.eq_nil_or_concat with rfl | ⟨rest, n, rfl⟩
  · rfl
  rw [List.concat_eq_append] at h ⊢
  have hn : kinds.contains n.kind = true := by
    rw [List.contains_iff_mem]
    by_contra hn
    exact h _ (.descend hn)
  rw [List.getLast?_concat, ahead_concat, List.find?_cons, hn]

/-! ### The node that is found -/

/-- The node at `address` is `d`, and it is the first one of the kinds in the tree of `n`: every other one
has a later address, and none stands above it. -/
structure FirstAt (kinds : List String) (n d : Node) (address : List Nat) : Prop where
  here : n.at? address = some d
  wanted : d.kind ∈ kinds
  first : ∀ other m, n.at? other = some m → m.kind ∈ kinds → other = address ∨ List.Lex (· < ·) address other
  topmost : ∀ other m, n.at? other = some m → m.kind ∈ kinds → other <+: address → other = address

theorem exists_firstAt (h : n.first? kinds = some d) : ∃ address, FirstAt kinds n d address := by
  have hkind := (mem_of_first? h).2
  rw [first?_eq_find?] at h
  obtain ⟨address, hhere, hfirst⟩ := exists_least_address h
  have hlater (other : List Nat) (m : Node) (hm : n.at? other = some m) (hwanted : m.kind ∈ kinds) :
      other = address ∨ List.Lex (· < ·) address other :=
    hfirst other m hm (List.contains_iff_mem.mpr hwanted)
  refine ⟨address, hhere, hkind, hlater, fun other m hm hwanted hprefix => ?_⟩
  -- The addresses above a node are less than its own.
  exact (hlater other m hm hwanted).resolve_right fun hlex => List.IsPrefix.le hprefix hlex

theorem start_le_of_first? (hn : n.Nested) (h : n.first? kinds = some d) {m : Node} (hm : m ∈ n.preorder)
    (hwanted : m.kind ∈ kinds) : d.start ≤ m.start := by
  rw [first?_eq_find?, List.find?_eq_some_iff_append] at h
  obtain ⟨-, front, back, hsplit, hfront⟩ := h
  have hstarts := hn.pairwise_start
  rw [hsplit] at hm hstarts
  rcases List.mem_append.mp hm with hm | hm
  · have hnot := hfront m hm
    rw [List.contains_iff_mem.mpr hwanted] at hnot
    cases hnot
  · rcases List.mem_cons.mp hm with rfl | hm
    · exact Nat.le_refl _
    · exact (List.pairwise_cons.mp (List.pairwise_append.mp hstarts).2.1).1 m hm

/-- Every run of the loop ends, and ends with the answer of the search on top of the stack; this is the first node of
the kinds in the recursive traversal, and nothing if there is none. No node of the kinds stands above it, and where
the nodes lie inside their parents and siblings follow each other none begins in front of it. -/
theorem search_in_document_order (kinds : List String) (n : Node) :
    (WellFounded fun next stack => Turn kinds stack next) ∧
    (∀ stack, ReflTransGen (Turn kinds) [n] stack → (∀ next, ¬ Turn kinds stack next) →
      stack.getLast? = n.first? kinds) ∧
    n.first? kinds = n.preorder.find? (fun m => kinds.contains m.kind) ∧
    (n.first? kinds = none ↔ ∀ m ∈ n.preorder, m.kind ∉ kinds) ∧
    ∀ d, n.first? kinds = some d → (∃ address, FirstAt kinds n d address) ∧
      (n.Nested → ∀ m ∈ n.preorder, m.kind ∈ kinds → d.start ≤ m.start) := by
  refine ⟨turn_wellFounded kinds, fun stack hrun hlast => ?_, first?_eq_find? kinds n, ?_, fun d hd => ?_⟩
  · obtain ⟨met, hmet, hnot⟩ := exists_met hrun
    have hnone : met.find? (fun m => kinds.contains m.kind) = none :=
      List.find?_eq_none.mpr fun m hm hwanted => hnot m hm (List.contains_iff_mem.mp hwanted)
    rw [getLast?_eq_find?_ahead hlast, first?_eq_find?, hmet, List.find?_append, hnone, Option.none_or]
  · rw [first?_eq_find?, List.find?_eq_none]
    exact forall₂_congr fun m _ => not_congr List.contains_iff_mem
  · exact ⟨exists_firstAt hd, fun hn m hm hwanted => start_le_of_first? hn hd hm hwanted⟩

/-- Where siblings overlap, what is found may begin behind another node that is wanted. -/
example : (Node.mk "program" 0 9 none [.mk "block" 0 9 none [.mk "text" 5 6 none []], .mk "text" 1 2 none []]).first?
    ["text"] = some (.mk "text" 5 6 none []) := by
  cbv

/-- A namespace in braces with a trait, in which a class stands, and a class behind it. -/
def bracedTypes : Node :=
  .mk "program" 0 62 none
    [.mk "php_tag" 0 5 none [],
      .mk "namespace_definition" 6 62 none
        [.mk "namespace" 6 15 none [],
          .mk "compound_statement" 16 62 (some "body")
            [.mk "trait_declaration" 18 42 none [.mk "class_declaration" 28 40 none []],
              .mk "class_declaration" 43 60 none []]]]

theorem search_in_document_order_braced :
    bracedTypes.first? ["class_declaration", "trait_declaration"] =
        some (.mk "trait_declaration" 18 42 none [.mk "class_declaration" 28 40 none []]) ∧
      bracedTypes.Nested ∧
      ∀ m ∈ bracedTypes.preorder, m.kind ∈ ["class_declaration", "trait_declaration"] → 18 ≤ m.start := by
  have hfirst : bracedTypes.first? ["class_declaration", "trait_declaration"] =
      some (.mk "trait_declaration" 18 42 none [.mk "class_declaration" 28 40 none []]) := by
    rw [first?_eq_find?]
    rfl
  have hnested : bracedTypes.Nested := ⟨by decide, by decide⟩
  obtain ⟨-, -, -, -, hfound⟩ := search_in_document_order ["class_declaration", "trait_declaration"] bracedTypes
  exact ⟨hfirst, hnested, (hfound _ hfirst).2 hnested⟩

end Namesake.Syntax.Node
