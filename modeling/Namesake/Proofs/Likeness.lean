import Mathlib.Tactic
import Namesake.Php.Outline
import Namesake.Proofs.Traversal

/-! Two passes over tokens that differ only in where they stand. A pass looks at lexemes and never at offsets, but for the length of a
token in a clause; so two outlines that are alike stay alike, step by step, and what they find is alike at the end. What "alike" means for offsets,
for the names of types and for clauses is left open (`Likeness`): with an offset moved it compares a text with a changed one, and with
equality and a property it says what holds of everything that a single pass finds. -/

namespace Namesake.Php

open Syntax

theorem Lexeme.exists_of_isWord {l : Lexeme} (h : l.isWord) : ∃ w, l = .word w := by
  cases l <;> first | exact ⟨_, rfl⟩ | cases h

theorem Lexeme.exists_of_isComment {l : Lexeme} (h : l.isComment) : ∃ broken, l = .comment broken := by
  cases l <;> first | exact ⟨_, rfl⟩ | cases h

def Token.extent (t : Token) : Extent :=
  ⟨t.start, t.stop⟩

/-- What it means for two outlines to be alike: for the places where a clause may end, for keywords, for the
names of namespaces and of types, and for clauses, each with its end if it has no body. -/
structure Likeness where
  place : Nat → Nat → Prop
  keyword : Extent → Extent → Prop
  spaceName : Extent → Extent → Prop
  typeName : Extent → Extent → Prop
  clause : Naming → Option Nat → Naming → Option Nat → Prop

/-- The token begins a clause: the keyword stands where a declaration may begin, or in a clause of which it is no part. -/
def Outline.Begins (o : Outline) (t : Token) (next : Option Lexeme) : Prop :=
  t.lexeme = .word "namespace" ∧ next ≠ some .separator ∧
    match o.top.phase with
    | .ready _ _ => o.top.content = .statements
    | .busy true => o.top.content = .statements ∧ next.any Lexeme.isWord
    | .naming n => Outline.isOverlooked n t next = false
    | _ => False

/-- The token is the name of a type. -/
def Outline.Names (o : Outline) (t : Token) : Prop :=
  t.lexeme.isWord ∧
    match o.top.phase with
    | .heading h => h.kind.isSome ∧ h.name = none
    | _ => False

namespace Likeness

variable (L : Likeness)

/-- Two clauses of which the name is being read are alike. -/
structure Live (n n' : Naming) : Prop where
  keyword : L.keyword n.keyword n'.keyword
  name : Option.Rel L.spaceName n.name n'.name
  joined : n'.joined = n.joined

/-- Clauses whose names are read are alike when they end. -/
structure Lawful : Prop where
  ends : ∀ {n n' : Naming} {p p' : Nat}, L.Live n n' → L.place p p' → L.clause n (some p) n' (some p')
  opens : ∀ {n n' : Naming}, L.Live n n' → L.clause n none n' none

/-- Two phases are alike, of frames with some content. Clauses are read among statements only. -/
inductive Phased (c : Content) : Phase → Phase → Prop
  | ready {a a' : Option Nat} (h : a'.isNone = a.isNone) (m : Bool) : Phased c (.ready a m) (.ready a' m)
  | busy (w : Bool) : Phased c (.busy w) (.busy w)
  | creating : Phased c .creating .creating
  | heading (k : Option TypeKind) (s s' : Nat) {e e' : Option Extent} (h : Option.Rel L.typeName e e') :
      Phased c (.heading ⟨k, s, e⟩) (.heading ⟨k, s', e'⟩)
  | naming {n n' : Naming} (hc : c = .statements) (h : L.Live n n') : Phased c (.naming n) (.naming n')

/-- What two brackets are the bodies of is alike. -/
inductive Owned : Owner → Owner → Prop
  | nothing : Owned .nothing .nothing
  | type (k : TypeKind) (s s' : Nat) {e e' : Extent} (h : L.typeName e e') : Owned (.type k s e) (.type k s' e')
  | clause {n n' : Naming} (h : L.clause n none n' none) : Owned (.clause n) (.clause n')

/-- Two nodes that are looked for are alike. -/
inductive Shown : Syntax.Node → Syntax.Node → Prop
  | statement {n n' : Naming} {p p' : Nat} (h : L.clause n (some p) n' (some p')) :
      Shown (.mk Tree.clauseKind n.keyword.start p none (Frame.clauseFront n))
        (.mk Tree.clauseKind n'.keyword.start p' none (Frame.clauseFront n'))
  | block {n n' : Naming} (h : L.clause n none n' none) (p s p' s' : Nat) (b b' : List Syntax.Node) :
      Shown (.mk Tree.clauseKind n.keyword.start p none
          (Frame.clauseFront n ++ [.mk "compound_statement" s p (some "body") b]))
        (.mk Tree.clauseKind n'.keyword.start p' none
          (Frame.clauseFront n' ++ [.mk "compound_statement" s' p' (some "body") b']))
  | type (k : TypeKind) {e e' : Extent} (h : L.typeName e e') (a p s a' p' s' : Nat) (b b' : List Syntax.Node) :
      Shown (.mk k.nodeKind a p none
          [.mk "name" e.start e.stop (some "name") [], .mk "declaration_list" s p (some "body") b])
        (.mk k.nodeKind a' p' none
          [.mk "name" e'.start e'.stop (some "name") [], .mk "declaration_list" s' p' (some "body") b'])

end Likeness

/-- The kinds of the nodes that are looked for. -/
def shownKinds : List String :=
  Tree.clauseKind :: TypeKind.all.map TypeKind.nodeKind

/-- The nodes of a list of trees that are looked for, in document order. -/
def shown (ns : List Syntax.Node) : List Syntax.Node :=
  (ns.flatMap Syntax.Node.preorder).filter fun n => shownKinds.contains n.kind

@[simp] theorem shown_nil : shown [] = [] := rfl

@[simp] theorem shown_append (xs ys : List Syntax.Node) : shown (xs ++ ys) = shown xs ++ shown ys := by
  simp [shown]

theorem shown_singleton (k : String) (s p : Nat) (f : Option String) (cs : List Syntax.Node) :
    shown [.mk k s p f cs] = (if shownKinds.contains k then [.mk k s p f cs] else []) ++ shown cs := by
  rw [shown, List.flatMap_singleton, Syntax.Node.preorder_eq_cons, List.filter_cons]
  split <;> simp_all [shown, Syntax.Node.kind, Syntax.Node.children]

theorem shown_leaf {k : String} (hk : shownKinds.contains k = false) (s p : Nat) (f : Option String) :
    shown [.mk k s p f []] = [] := by
  rw [shown_singleton, hk]
  rfl

/-- A body gives what it holds. -/
theorem shown_body {k : String} (hk : shownKinds.contains k = false) (s p : Nat) (ns : List Syntax.Node) :
    shown [.mk k s p (some "body") ns] = shown ns := by
  rw [shown_singleton, hk]
  rfl

theorem shown_clauseFront (n : Naming) : shown (Frame.clauseFront n) = [] := by
  have hkeyword : shown [.mk "namespace" n.keyword.start n.keyword.stop none []] = [] := shown_leaf (by decide) _ _ _
  rw [Frame.clauseFront, ← List.singleton_append, shown_append, hkeyword]
  cases n.name with
  | none => rfl
  | some e =>
      have hname : shown [.mk "namespace_name" e.start e.stop (some "name") []] = [] := shown_leaf (by decide) _ _ _
      exact hname

theorem shown_statement (n : Naming) (p : Nat) :
    shown [.mk Tree.clauseKind n.keyword.start p none (Frame.clauseFront n)] =
      [.mk Tree.clauseKind n.keyword.start p none (Frame.clauseFront n)] := by
  have hkind : shownKinds.contains Tree.clauseKind = true := by decide
  rw [shown_singleton, hkind, if_pos rfl, shown_clauseFront, List.append_nil]

theorem shown_block (n : Naming) (p s : Nat) (ns : List Syntax.Node) :
    shown [.mk Tree.clauseKind n.keyword.start p none
        (Frame.clauseFront n ++ [.mk "compound_statement" s p (some "body") ns])] =
      .mk Tree.clauseKind n.keyword.start p none
        (Frame.clauseFront n ++ [.mk "compound_statement" s p (some "body") ns]) :: shown ns := by
  have hkind : shownKinds.contains Tree.clauseKind = true := by decide
  rw [shown_singleton, hkind, if_pos rfl, shown_append, shown_clauseFront, shown_body (by decide)]
  rfl

theorem shown_type (k : TypeKind) (e : Extent) (a p s : Nat) (ns : List Syntax.Node) :
    shown [.mk k.nodeKind a p none
        [.mk "name" e.start e.stop (some "name") [], .mk "declaration_list" s p (some "body") ns]] =
      .mk k.nodeKind a p none
        [.mk "name" e.start e.stop (some "name") [], .mk "declaration_list" s p (some "body") ns] :: shown ns := by
  have hkind : shownKinds.contains k.nodeKind = true := by cases k <;> decide
  have hchildren : shown [.mk "name" e.start e.stop (some "name") [], .mk "declaration_list" s p (some "body") ns] =
      shown ns := by
    have hname : shown [.mk "name" e.start e.stop (some "name") []] = [] := shown_leaf (by decide) _ _ _
    rw [← List.singleton_append, shown_append, hname, shown_body (by decide), List.nil_append]
  rw [shown_singleton, hkind, if_pos rfl, hchildren]
  rfl

namespace Likeness

variable (L : Likeness)

/-- What two frames have found is alike; the second one may have found `extra` before. -/
def Found (extra : List Syntax.Node) (xs ys : List Syntax.Node) : Prop :=
  ∃ l, shown ys.reverse = extra ++ l ∧ List.Forall₂ L.Shown (shown xs.reverse) l

/-- Two frames are alike. -/
structure Framed (extra : List Syntax.Node) (f f' : Frame) : Prop where
  bracket : f'.bracket = f.bracket
  owner : L.Owned f.owner f'.owner
  content : f'.content = f.content
  phase : L.Phased f.content f.phase f'.phase
  found : L.Found extra f.found f'.found

/-- Two stacks of brackets are alike; no clause is being read but on top, and only the frame of the whole text has found more. -/
inductive Stacked (extra : List Syntax.Node) : Frame → List Frame → Frame → List Frame → Prop
  | bottom {f f' : Frame} (h : L.Framed extra f f') : Stacked extra f [] f' []
  | above {f f' g g' : Frame} {r r' : List Frame} (h : L.Framed [] f f') (hg : ∀ n, g.phase ≠ .naming n)
      (hr : Stacked extra g r g' r') : Stacked extra f (g :: r) f' (g' :: r')

/-- Two outlines are alike, but for the place where the end of code may end a clause. -/
structure Alike (extra : List Syntax.Node) (o o' : Outline) : Prop where
  stack : L.Stacked extra o.top o.outer o'.top o'.outer
  last : L.place o.last o'.last

/-- Two outlines are alike in all. -/
structure Matched (extra : List Syntax.Node) (o o' : Outline) : Prop extends L.Alike extra o o' where
  anchor : L.place o.anchor o'.anchor

/-! ### What is found -/

variable {L} {extra : List Syntax.Node}

theorem Found.append {xs ys us vs : List Syntax.Node} (h : L.Found extra xs ys) (hn : L.Found [] us vs) :
    L.Found extra (us ++ xs) (vs ++ ys) := by
  obtain ⟨l, hl, hall⟩ := h
  obtain ⟨l', hl', hall'⟩ := hn
  refine ⟨l ++ l', ?_, ?_⟩
  · rw [List.reverse_append, shown_append, hl, hl', List.nil_append, List.append_assoc]
  · rw [List.reverse_append, shown_append]
    exact List.rel_append hall hall'

theorem Found.single {x y : Syntax.Node} (h : L.Shown x y) {xs ys : List Syntax.Node} (hx : shown [x] = x :: shown xs.reverse)
    (hy : shown [y] = y :: shown ys.reverse) (hxy : L.Found [] xs ys) : L.Found [] [x] [y] := by
  obtain ⟨l, hl, hall⟩ := hxy
  refine ⟨y :: l, ?_, ?_⟩
  · rw [List.reverse_singleton, hy, hl, List.nil_append, List.nil_append]
  · rw [List.reverse_singleton, hx]
    exact .cons h hall

theorem Framed.result {f f' : Frame} (h : L.Framed [] f f') (p p' : Nat) : L.Found [] (f.result p) (f'.result p') := by
  obtain ⟨-, howner, -, -, hfound⟩ := h
  obtain ⟨b, s, o, c, ph, fs⟩ := f
  obtain ⟨b', s', o', c', ph', fs'⟩ := f'
  cases howner with
  | nothing => exact hfound
  | type k a a' hty =>
      exact .single (.type k hty a p s a' p' s' _ _) (shown_type k _ a p s _) (shown_type k _ a' p' s' _) hfound
  | clause hcl => exact .single (.block hcl p s p' s' _ _) (shown_block _ p s _) (shown_block _ p' s' _) hfound

/-! ### Frames -/

theorem Framed.enter {f f' : Frame} (h : L.Framed extra f f') {p p' : Phase} (hp : L.Phased f.content p p') :
    L.Framed extra (f.enter p) (f'.enter p') :=
  ⟨h.bracket, h.owner, h.content, hp, h.found⟩

theorem Framed.find {f f' : Frame} (h : L.Framed extra f f') {xs ys : List Syntax.Node} (hxy : L.Found [] xs ys) :
    L.Framed extra (f.find xs) (f'.find ys) :=
  ⟨h.bracket, h.owner, h.content, h.phase, h.found.append hxy⟩

theorem Framed.endClause {f f' : Frame} (h : L.Framed extra f f') {n n' : Naming} {p p' : Nat}
    (hn : L.clause n (some p) n' (some p')) : L.Framed extra (f.endClause n p) (f'.endClause n' p') := by
  refine (h.find ?_).enter (.ready rfl false)
  refine ⟨[.mk Tree.clauseKind n'.keyword.start p' none (Frame.clauseFront n')], ?_, ?_⟩
  · rw [List.reverse_singleton, shown_statement, List.nil_append]
  · rw [List.reverse_singleton, shown_statement]
    exact .cons (.statement hn) .nil

theorem Live.isSome_name {n n' : Naming} (h : L.Live n n') : n'.name.isSome = n.name.isSome := by
  have hname := h.name
  revert hname
  cases n.name <;> cases n'.name <;> intro hname <;> cases hname <;> rfl

theorem Framed.settle {f f' : Frame} (hL : L.Lawful) (h : L.Framed extra f f') {p p' : Nat} (hp : L.place p p') :
    L.Framed extra (f.settle p) (f'.settle p') := by
  have hphase := h.phase
  unfold Frame.settle
  revert hphase
  generalize f.phase = q
  generalize f'.phase = q'
  intro hphase
  cases hphase with
  | naming hc hn =>
      simp only [hn.isSome_name, hn.joined]
      split
      · exact h.endClause (hL.ends hn hp)
      · exact h
  | _ => exact h

/-! ### Stacks -/

theorem Stacked.exists_top {f f' : Frame} {r r' : List Frame} (h : L.Stacked extra f r f' r') :
    ∃ ex, L.Framed ex f f' := by
  cases h with
  | bottom h => exact ⟨extra, h⟩
  | above h _ _ => exact ⟨[], h⟩

/-- The frames on top give way to others that are alike. -/
theorem Stacked.mapTop {f f' g g' : Frame} {r r' : List Frame} (h : L.Stacked extra f r f' r')
    (hmap : ∀ ex, L.Framed ex f f' → L.Framed ex g g') : L.Stacked extra g r g' r' := by
  cases h with
  | bottom h => exact .bottom (hmap _ h)
  | above h hg hr => exact .above (hmap _ h) hg hr

open Outline in
/-- Either both searches for the begin of a bracket find it inside another one, or none does. -/
theorem Stacked.unwind {b : Bracket} {f f' : Frame} {r r' : List Frame} (h : L.Stacked extra f r f' r') :
    (∃ g p s g' p' s', Outline.unwind b f r = some (g, p :: s) ∧ Outline.unwind b f' r' = some (g', p' :: s') ∧
      L.Framed [] g g' ∧ L.Stacked extra p s p' s') ∨
    ((∀ g p s, Outline.unwind b f r ≠ some (g, p :: s)) ∧ ∀ g p s, Outline.unwind b f' r' ≠ some (g, p :: s)) := by
  induction r generalizing f f' r' with
  | nil =>
      cases h with
      | bottom h =>
          right
          constructor
          all_goals
            intro g p s
            rw [Outline.unwind]
            split <;> simp
  | cons k r ih =>
      cases h with
      | @above _ _ _ k' _ r' h hg hr =>
          simp only [Outline.unwind, h.bracket]
          by_cases hb : f.bracket = some b
          · left
            rw [if_pos hb, if_pos hb]
            exact ⟨f, k, r, f', k', r', rfl, rfl, h, hr⟩
          · rw [if_neg hb, if_neg hb]
            by_cases hp : f.bracket.all b.passes
            · rw [if_pos hp, if_pos hp]
              exact ih (hr.mapTop fun _ hk => hk.find h.found)
            · rw [if_neg hp, if_neg hp]
              exact .inr ⟨by simp, by simp⟩

/-! ### Steps -/

variable {o o' : Outline}

theorem Alike.content (h : L.Alike extra o o') : o'.top.content = o.top.content := by
  obtain ⟨ex, htop⟩ := h.stack.exists_top
  exact htop.content

theorem Alike.phase (h : L.Alike extra o o') : L.Phased o.top.content o.top.phase o'.top.phase := by
  obtain ⟨ex, htop⟩ := h.stack.exists_top
  exact htop.phase

theorem Alike.mapTop (h : L.Alike extra o o') {g g' : Frame} (hmap : ∀ ex, L.Framed ex o.top o'.top → L.Framed ex g g') :
    L.Alike extra { o with top := g } { o' with top := g' } :=
  ⟨h.stack.mapTop hmap, h.last⟩

theorem Alike.enter (h : L.Alike extra o o') {p p' : Phase} (hp : L.Phased o.top.content p p') :
    L.Alike extra (o.enter p) (o'.enter p') :=
  h.mapTop fun _ htop => htop.enter hp

theorem phased_ready (c : Content) : L.Phased c (.ready none false) (.ready none false) :=
  .ready rfl false

theorem phased_first (c : Content) : L.Phased c c.first c.first := by
  cases c
  · exact .ready rfl false
  · exact .ready rfl false
  · exact .busy false

theorem Alike.opened (h : L.Alike extra o o') (b : Bracket) (t t' : Token) {w w' : Owner} (hw : L.Owned w w') (c : Content)
    {p p' : Phase} (hp : L.Phased o.top.content p p') (hn : ∀ n, p ≠ .naming n) :
    L.Alike extra (o.opened b t w c p) (o'.opened b t' w' c p') := by
  have htop : L.Framed [] ⟨some b, t.start, w, c, c.first, []⟩ ⟨some b, t'.start, w', c, c.first, []⟩ :=
    ⟨rfl, hw, rfl, phased_first c, ⟨[], rfl, .nil⟩⟩
  exact ⟨.above htop hn (h.stack.mapTop fun _ hf => hf.enter hp), h.last⟩

theorem Alike.openedExpression (h : L.Alike extra o o') (b : Bracket) (t t' : Token) {p p' : Phase}
    (hp : L.Phased o.top.content p p')    (hn : ∀ n, p ≠ .naming n) : L.Alike extra (o.openedExpression b t p) (o'.openedExpression b t' p') :=
  h.opened b t t' .nothing .expression hp hn

theorem phased_afterEnd (c : Content) {p p' : Phase} (hp : L.Phased c p p') : L.Phased c (c.afterEnd p) (c.afterEnd p') := by
  cases c
  · exact .ready rfl false
  · exact .ready rfl false
  · exact hp

theorem phased_afterColon (c : Content) {p p' : Phase} (hp : L.Phased c p p') :
    L.Phased c (c.afterColon p) (c.afterColon p') := by
  cases c
  · exact .ready rfl false
  · exact hp
  · exact hp

theorem phased_afterBraces (c : Content) : L.Phased c c.afterBraces c.afterBraces := by
  cases c
  · exact .ready rfl false
  · exact .ready rfl false
  · exact .busy true

theorem phased_afterParens (c : Content) : L.Phased c c.afterParens c.afterParens := by
  cases c
  · exact .ready rfl false
  · exact .busy true
  · exact .busy true

theorem afterBraces_ne_naming (c : Content) (n : Naming) : c.afterBraces ≠ .naming n := by
  cases c <;> exact Phase.noConfusion

theorem afterParens_ne_naming (c : Content) (n : Naming) : c.afterParens ≠ .naming n := by
  cases c <;> exact Phase.noConfusion

theorem phased_afterStray (b : Bracket) {ex : List Syntax.Node} {f f' : Frame} (h : L.Framed ex f f') :
    L.Phased f.content (Outline.afterStray b f) (Outline.afterStray b f') := by
  have hphase := h.phase
  unfold Outline.afterStray
  rw [h.content]
  revert hphase
  generalize f.phase = q
  generalize f'.phase = q'
  intro hphase
  cases hphase with
  | naming hc hn => exact .naming hc hn
  | ready ha m => cases b <;> first | exact phased_afterEnd _ (.ready ha m) | exact .ready ha m
  | busy w => cases b <;> first | exact phased_afterEnd _ (.busy w) | exact .busy w
  | creating => cases b <;> first | exact phased_afterEnd _ .creating | exact .creating
  | heading k s s' he => cases b <;> first | exact phased_afterEnd _ (.heading k s s' he) | exact .heading k s s' he

theorem Alike.closed (hL : L.Lawful) (h : L.Alike extra o o') (b : Bracket) (t t' : Token) :
    L.Alike extra (o.closed b t) (o'.closed b t') := by
  have hsettled : L.Stacked extra (o.top.settle o.last) o.outer (o'.top.settle o'.last) o'.outer :=
    h.stack.mapTop fun _ hf => hf.settle hL h.last
  unfold Outline.closed
  rcases hsettled.unwind (b := b) with ⟨g, p, s, g', p', s', hu, hu', hg, hs⟩ | ⟨hu, hu'⟩
  · rw [hu, hu']
    exact ⟨hs.mapTop fun _ hf => hf.find (hg.result t.stop t'.stop), h.last⟩
  · obtain ⟨ex, htop⟩ := h.stack.exists_top
    split
    · rename_i hs
      exact absurd hs (hu _ _ _)
    · exact h.enter (phased_afterStray b htop)

/-- Two tokens are the same but for the places where they stand. -/
structure Token (t t' : Php.Token) : Prop where
  lexeme : t'.lexeme = t.lexeme
  short : t'.stop - t'.start ≤ Outline.strayLimit ↔ t.stop - t.start ≤ Outline.strayLimit
  place : L.place t.stop t'.stop
  name : L.spaceName t.extent t'.extent
  /-- As the ends of names of namespaces. -/
  joins : ∀ {e e' : Extent}, L.spaceName e e' → L.spaceName ⟨e.start, t.stop⟩ ⟨e'.start, t'.stop⟩

variable {t t' : Php.Token}

theorem Alike.inside (hL : L.Lawful) (h : L.Alike extra o o') (ht : Token (L := L) t t') :
    L.Alike extra (o.inside t) (o'.inside t') := by
  simp only [Outline.inside, ht.lexeme, h.content]
  cases t.lexeme with
  | text => exact h
  | comment _ => exact h
  | enter => exact h.enter (phased_afterColon _ h.phase)
  | leave => exact h.enter (phased_afterColon _ h.phase)
  | word w =>
      refine h.enter ?_
      split
      · exact .creating
      · exact .busy _
  | varName => exact h.enter (.busy true)
  | number => exact h.enter (.busy true)
  | quote => exact h.enter (.busy true)
  | scope => exact h.enter (.busy false)
  | separator => exact h.enter (.busy false)
  | sign => exact h.enter (.busy false)
  | operator => exact h.enter (.busy false)
  | semicolon => exact h.enter (phased_afterEnd _ (.busy false))
  | colon => exact h.enter (phased_afterColon _ (.busy false))
  | opening b =>
      cases b with
      | brace => exact h.opened .brace t t' .nothing .statements (phased_afterBraces _) (afterBraces_ne_naming _)
      | paren => exact h.openedExpression .paren t t' (phased_afterParens _) (afterParens_ne_naming _)
      | square => exact h.openedExpression .square t t' (.busy true) (fun _ => Phase.noConfusion)
      | insertion => exact h.openedExpression .insertion t t' (.busy true) (fun _ => Phase.noConfusion)
  | «attribute» => exact h.openedExpression .square t t' (.busy false) (fun _ => Phase.noConfusion)
  | closing b => exact h.closed hL b t t'

theorem Alike.begun (hL : L.Lawful) (h : L.Alike extra o o') (hc : o.top.content = .statements) (ht : Token (L := L) t t') (w : String) (next : Option Lexeme)
    (a a' : Option Nat) (m : Bool)
    (hkey : w = "namespace" → next ≠ some .separator → L.keyword t.extent t'.extent) :
    L.Alike extra (o.begun w t next a m) (o'.begun w t' next a' m) := by
  unfold Outline.begun
  cases Outline.kindOf? w with
  | some kind =>
      dsimp only
      split
      · exact h.enter (.heading _ _ _ .none)
      · exact h.enter (.busy false)
  | none =>
      dsimp only
      split
      · rename_i hns
        simp only [Bool.and_eq_true, decide_eq_true_eq, bne_iff_ne] at hns
        exact h.enter (.naming hc ⟨hkey hns.1 hns.2, .none, rfl⟩)
      split
      · exact h.enter (.ready (by rfl) true)
      split
      · exact h.enter (.ready rfl false)
      · exact h.inside hL ht

theorem Alike.between (hL : L.Lawful) (h : L.Alike extra o o') (hc : o.top.content = .statements) (ht : Token (L := L) t t') (next : Option Lexeme)
    (a a' : Option Nat) (m : Bool)
    (hkey : t.lexeme = .word "namespace" → next ≠ some .separator → L.keyword t.extent t'.extent) :
    L.Alike extra (o.between t next a m) (o'.between t' next a' m) := by
  unfold Outline.between
  rw [ht.lexeme]
  split
  · rename_i w hw
    exact h.begun hL hc ht w next a a' m fun heq => hkey (by rw [hw, heq])
  · exact h.openedExpression .square t t' (.ready (by rfl) m) (fun _ => Phase.noConfusion)
  · exact h.enter (.ready rfl false)
  · exact h.inside hL ht

theorem Alike.betweenMembers (hL : L.Lawful) (h : L.Alike extra o o') (ht : Token (L := L) t t')
    (hp : ∀ n, o.top.phase ≠ .naming n) : L.Alike extra (o.betweenMembers t) (o'.betweenMembers t') := by
  unfold Outline.betweenMembers
  rw [ht.lexeme]
  split
  · split
    · exact h.enter (.busy false)
    · exact h
  · exact h.openedExpression .square t t' h.phase hp
  · exact h.closed hL _ t t'
  · exact h

theorem Alike.afterNew (hL : L.Lawful) (h : L.Alike extra o o') (ht : Token (L := L) t t') :
    L.Alike extra (o.afterNew t) (o'.afterNew t') := by
  unfold Outline.afterNew
  rw [ht.lexeme]
  split
  · split
    · exact h.enter (.heading _ _ _ .none)
    split
    · exact h
    · exact h.inside hL ht
  · exact h.openedExpression .square t t' .creating (fun _ => Phase.noConfusion)
  · exact h.inside hL ht

theorem Alike.inHead (hL : L.Lawful) (h : L.Alike extra o o') (ht : Token (L := L) t t') {k : Option TypeKind} {s s' : Nat}
    {e e' : Option Extent} (he : Option.Rel L.typeName e e')
    (hname : k.isSome → e = none → t.lexeme.isWord → L.typeName t.extent t'.extent) :
    L.Alike extra (o.inHead ⟨k, s, e⟩ t) (o'.inHead ⟨k, s', e'⟩ t') := by
  have hheading : L.Phased o.top.content (.heading ⟨k, s, e⟩) (.heading ⟨k, s', e'⟩) := .heading k s s' he
  have hbody {w w' : Owner} (hw : L.Owned w w') :
      L.Alike extra (o.opened .brace t w .members o.top.content.afterBraces)
        (o'.opened .brace t' w' .members o'.top.content.afterBraces) := by
    rw [h.content]
    exact h.opened .brace t t' hw .members (phased_afterBraces _) (afterBraces_ne_naming _)
  have hexpr (b : Bracket) := h.openedExpression b t t' hheading (fun _ => Phase.noConfusion)
  unfold Outline.inHead
  rw [ht.lexeme]
  revert hname
  generalize t.lexeme = l
  intro hname
  cases l with
  | word w =>
      cases k with
      | none => exact h
      | some k =>
          cases he with
          | none => exact h.enter (.heading (some k) s s' (.some (hname rfl rfl rfl)))
          | some he => exact h
  | opening b =>
      cases b with
      | brace =>
          cases k with
          | none => exact hbody .nothing
          | some k =>
              cases he with
              | none => exact h.inside hL ht
              | some he => exact hbody (.type k s s' he)
      | paren => exact hexpr .paren
      | square => exact hexpr .square
      | insertion => exact hexpr .insertion
  | quote =>
      cases k with
      | none => exact h
      | some k =>
          cases he with
          | none => exact h.inside hL ht
          | some he => exact h
  | semicolon => exact h.inside hL ht
  | closing b => exact h.inside hL ht
  | «attribute» => exact hexpr .square
  | _ => exact h

theorem isOverlooked_eq {n n' : Naming} (hn : L.Live n n') (ht : Token (L := L) t t') (next : Option Lexeme) :
    Outline.isOverlooked n' t' next = Outline.isOverlooked n t next := by
  have hnone : n'.name.isNone = n.name.isNone := by
    rw [← Option.not_isSome, ← Option.not_isSome, hn.isSome_name]
  simp only [Outline.isOverlooked, hn.joined, hnone, ht.lexeme, ht.short]

theorem Alike.strayed (hL : L.Lawful) (h : L.Alike extra o o') (hc : o.top.content = .statements) (ht : Token (L := L) t t') {n n' : Naming}
    (hn : L.Live n n') (next : Option Lexeme)
    (hkey : Outline.isOverlooked n t next = false → t.lexeme = .word "namespace" → next ≠ some .separator →
      L.keyword t.extent t'.extent) :
    L.Alike extra (o.strayed n t next) (o'.strayed n' t' next) := by
  unfold Outline.strayed
  rw [isOverlooked_eq hn ht]
  split
  · exact h
  · rename_i hover
    exact (h.mapTop fun _ htop => htop.endClause (hL.ends hn h.last)).between hL hc ht next none none false
      (hkey (by simpa using hover))

theorem Alike.inClause (hL : L.Lawful) (h : L.Alike extra o o') (hc : o.top.content = .statements) (ht : Token (L := L) t t') {n n' : Naming}
    (hn : L.Live n n') (next : Option Lexeme) (hanchor : t.lexeme = .leave → L.place o.anchor o'.anchor)
    (hkey : Outline.isOverlooked n t next = false → t.lexeme = .word "namespace" → next ≠ some .separator →
      L.keyword t.extent t'.extent) :
    L.Alike extra (o.inClause n t next) (o'.inClause n' t' next) := by
  have hstray := h.strayed hL hc ht hn next hkey
  obtain ⟨kw, name, joined⟩ := n
  obtain ⟨kw', name', joined'⟩ := n'
  obtain ⟨hkw, hname, hjoined⟩ := hn
  have hn : L.Live ⟨kw, name, joined⟩ ⟨kw', name', joined'⟩ := ⟨hkw, hname, hjoined⟩
  dsimp only at hkw hname hjoined
  subst hjoined
  unfold Outline.inClause
  rw [ht.lexeme]
  revert hanchor
  generalize t.lexeme = l
  intro hanchor
  cases l with
  | word w =>
      cases hname with
      | none => exact h.enter (.naming hc ⟨hkw, .some ht.name, rfl⟩)
      | some he =>
          dsimp only
          split
          · exact h.enter (.naming hc ⟨hkw, .some (ht.joins he), rfl⟩)
          · exact hstray
  | separator =>
      cases hname with
      | none => exact h.enter (.busy false)
      | some he => exact h.enter (.naming hc ⟨hkw, .some he, rfl⟩)
  | semicolon =>
      cases hname with
      | none => exact h.enter (.ready rfl false)
      | some he => exact h.mapTop fun _ htop => htop.endClause (hL.ends hn ht.place)
  | leave =>
      cases hname with
      | none => exact h.enter (.ready rfl false)
      | some he => exact h.mapTop fun _ htop => htop.endClause (hL.ends hn (hanchor rfl))
  | opening b =>
      cases b with
      | brace =>
          dsimp only
          rw [h.content]
          exact h.opened .brace t t' (.clause (hL.opens hn)) .statements (phased_afterBraces _) (afterBraces_ne_naming _)
      | paren => exact hstray
      | square => exact hstray
      | insertion => exact hstray
  | closing b => exact h.closed hL b t t'
  | _ => exact hstray

theorem Alike.coded (hL : L.Lawful) (h : L.Alike extra o o') (ht : Token (L := L) t t') (next : Option Lexeme)
    (hanchor : t.lexeme = .leave → L.place o.anchor o'.anchor)
    (hkey : o.Begins t next → L.keyword t.extent t'.extent) (hname : o.Names t → L.typeName t.extent t'.extent) :
    L.Alike extra (o.coded t next) (o'.coded t' next) := by
  have hphase := h.phase
  unfold Outline.Begins at hkey
  unfold Outline.Names at hname
  unfold Outline.coded
  rw [h.content]
  generalize hq : o.top.phase = q at hphase hkey hname
  generalize o'.top.phase = q' at hphase
  cases hphase with
  | ready _ m =>
      cases hc : o.top.content with
      | statements => exact h.between hL hc ht next _ _ m fun hl hn => hkey ⟨hl, hn, hc⟩
      | members => exact h.betweenMembers hL ht (by rw [hq]; exact fun _ => Phase.noConfusion)
      | expression => exact h.inside hL ht
  | busy w =>
      cases w with
      | false => exact h.inside hL ht
      | true =>
          cases hc : o.top.content with
          | members => exact h.inside hL ht
          | expression => exact h.inside hL ht
          | statements =>
              dsimp only
              rw [ht.lexeme]
              split
              · rename_i w v hl
                split
                · exact h.begun hL hc ht w _ none none false fun heq hn => hkey ⟨by rw [hl, heq], hn, hc, rfl⟩
                · exact h.inside hL ht
              · exact h.inside hL ht
  | creating => exact h.afterNew hL ht
  | heading k s s' he => exact h.inHead hL ht he fun hk he hw => hname ⟨hw, hk, he⟩
  | naming hc hn => exact h.inClause hL hc ht hn next hanchor fun ho hl hn => hkey ⟨hl, hn, ho⟩

end Likeness

/-- The lexeme of the first token that is no comment. -/
def Outline.nextLexeme (rest : List Token) : Option Lexeme :=
  (rest.find? fun t => !t.lexeme.isComment).map Token.lexeme

theorem Outline.step_of_code {t : Token} (ht : ¬ t.lexeme.isComment) (o : Outline) (rest : List Token) :
    o.step t rest = { o.coded t (nextLexeme rest) with last := t.stop, anchor := t.stop } := by
  unfold Outline.step
  split
  · rename_i hl
    rw [hl] at ht
    exact absurd rfl ht
  · rfl

namespace Likeness

variable {L : Likeness} {extra : List Syntax.Node} {o o' : Outline} {t t' : Php.Token}

theorem Matched.step (hL : L.Lawful) (h : L.Matched extra o o') (ht : Token (L := L) t t') {rest rest' : List Php.Token}
    (hrest : Outline.nextLexeme rest' = Outline.nextLexeme rest)
    (hkey : o.Begins t (Outline.nextLexeme rest) → L.keyword t.extent t'.extent)
    (hname : o.Names t → L.typeName t.extent t'.extent) : L.Matched extra (o.step t rest) (o'.step t' rest') := by
  by_cases hc : t.lexeme.isComment
  · obtain ⟨broken, hl⟩ := Lexeme.exists_of_isComment hc
    simp only [Outline.step, ht.lexeme, hl]
    refine ⟨⟨h.stack, ht.place⟩, ?_⟩
    cases broken
    · exact ht.place
    · exact h.anchor
  · rw [Outline.step_of_code hc, Outline.step_of_code (by rwa [ht.lexeme]), hrest]
    exact ⟨⟨(h.coded hL ht _ (fun _ => h.anchor) hkey hname).stack, ht.place⟩, ht.place⟩

/-- Two lists of tokens are alike. -/
theorem nextLexeme_eq {ts ts' : List Php.Token} (h : List.Forall₂ (Token (L := L)) ts ts') :
    Outline.nextLexeme ts' = Outline.nextLexeme ts := by
  induction h with
  | nil => rfl
  | @cons t t' ts ts' ht _ ih =>
      simp only [Outline.nextLexeme, List.find?_cons, ht.lexeme] at ih ⊢
      split
      · simp [ht.lexeme]
      · exact ih

/-- Tokens of which the keywords and the names of types are alike wherever they stand. -/
structure Plain (t t' : Php.Token) : Prop extends Token (L := L) t t' where
  keyword : L.keyword t.extent t'.extent
  typeName : L.typeName t.extent t'.extent

theorem Matched.run (hL : L.Lawful) {ts ts' : List Php.Token} (hts : List.Forall₂ (Plain (L := L)) ts ts')
    (h : L.Matched extra o o') : L.Matched extra (o.run ts) (o'.run ts') := by
  induction hts generalizing o o' with
  | nil => exact h
  | @cons t t' ts ts' ht hts ih =>
      have hrest : List.Forall₂ (Token (L := L)) ts ts' := hts.imp fun _ _ h => h.toToken
      exact ih (h.step hL ht.toToken (nextLexeme_eq hrest) (fun _ => ht.keyword) (fun _ => ht.typeName))

/-! ### The end of the text -/

theorem isWhole_eq {ex : List Syntax.Node} {f f' : Frame} (h : L.Framed ex f f') : Outline.isWhole f' = Outline.isWhole f := by
  have hphase := h.phase
  unfold Outline.isWhole
  rw [h.bracket]
  generalize f.phase = q at hphase
  generalize f'.phase = q' at hphase
  cases hphase with
  | @ready a a' ha m =>
      cases a <;> cases a' <;> simp only [Option.isNone_none, Option.isNone_some, reduceCtorEq] at ha <;>
        rcases f.bracket with _ | _ | _ | _ | _ <;> rfl
  | _ => rcases f.bracket with _ | _ | _ | _ | _ <;> rfl

theorem Stacked.finish (hL : L.Lawful) {p p' : Nat} (hp : L.place p p') {f f' : Frame} {r r' : List Frame}
    (h : L.Stacked extra f r f' r') :
    ∃ l, shown (Outline.finish p' f' r') = extra ++ l ∧ List.Forall₂ L.Shown (shown (Outline.finish p f r)) l := by
  induction r generalizing f f' r' with
  | nil =>
      cases h with
      | bottom h => exact (h.settle hL hp).found
  | cons g r ih =>
      cases h with
      | @above _ _ _ g' _ r' h hg hr =>
          have hs := h.settle hL hp
          simp only [Outline.finish, isWhole_eq hs]
          split
          · exact ih (hr.mapTop fun _ hk => hk.find (hs.result p p'))
          · exact ih (hr.mapTop fun _ hk => (hk.find hs.found).enter (.busy false))

/-- What two passes find is alike. -/
theorem Alike.nodes (hL : L.Lawful) (h : L.Alike extra o o') :
    ∃ l, shown o'.nodes = extra ++ l ∧ List.Forall₂ L.Shown (shown o.nodes) l :=
  h.stack.finish hL h.last

end Likeness

end Namesake.Php
