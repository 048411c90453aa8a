import Namesake.Proofs.Likeness

/-! A pass over tokens cut in two. What a pass does with a token hangs on the lexeme that follows, but of a word only on there being one.
From what one step does follows what holds of all that a pass finds: a clause stems from a token that begins one, and the name of a
type from a token that names one. -/

namespace Namesake.Php

namespace Outline

/-- The outline after some tokens, with `rest` behind them. -/
def through (o : Outline) : List Token → List Token → Outline
  | [], _ => o
  | t :: ts, rest => (o.step t (ts ++ rest)).through ts rest

theorem run_append (o : Outline) (ts rest : List Token) : o.run (ts ++ rest) = (o.through ts rest).run rest := by
  induction ts generalizing o with
  | nil => rfl
  | cons t ts ih => exact ih (o.step t (ts ++ rest))

theorem through_append (o : Outline) (ts us rest : List Token) :
    o.through (ts ++ us) rest = (o.through ts (us ++ rest)).through us rest := by
  induction ts generalizing o with
  | nil => rfl
  | cons t ts ih =>
      rw [List.cons_append, through, through, List.append_assoc]
      exact ih _

theorem run_eq_through (o : Outline) (ts : List Token) : o.run ts = o.through ts [] := by
  have h := o.run_append ts []
  rw [List.append_nil] at h
  exact h

/-! ### What follows a token -/

section

variable (o : Outline) (t : Token) (v w : String)

/-- Of a word that follows it counts only that there is one. -/
theorem coded_word : o.coded t (some (.word w)) = o.coded t (some (.word v)) := by
  unfold coded
  split
  · rfl
  · rfl
  · rfl
  · cases t.lexeme <;> rfl
  · rfl
  · rfl
  · rfl
  · rfl

end

/-- The same follows, or some word follows in either place. -/
def Succeeds (next next' : Option Lexeme) : Prop :=
  next' = next ∨ ∃ v w, next = some (.word v) ∧ next' = some (.word w)

theorem coded_congr {next next' : Option Lexeme} (h : Succeeds next next') (o : Outline) (t : Token) :
    o.coded t next' = o.coded t next := by
  rcases h with rfl | ⟨v, w, rfl, rfl⟩
  · rfl
  · exact coded_word o t v w

theorem succeeds_append {rest rest' : List Token} (h : Succeeds (nextLexeme rest) (nextLexeme rest')) (ts : List Token) :
    Succeeds (nextLexeme (ts ++ rest)) (nextLexeme (ts ++ rest')) := by
  induction ts with
  | nil => exact h
  | cons t ts ih =>
      by_cases ht : t.lexeme.isComment
      · simpa [nextLexeme, List.find?_cons, ht] using ih
      · exact .inl (by simp [nextLexeme, ht])

theorem step_congr {rest rest' : List Token} (h : Succeeds (nextLexeme rest) (nextLexeme rest')) (o : Outline) (t : Token) :
    o.step t rest' = o.step t rest := by
  by_cases ht : t.lexeme.isComment
  · obtain ⟨broken, hl⟩ := Lexeme.exists_of_isComment ht
    simp only [step, hl]
  · rw [step_of_code ht, step_of_code ht, coded_congr h]

theorem through_congr {rest rest' : List Token} (h : Succeeds (nextLexeme rest) (nextLexeme rest')) (o : Outline)
    (ts : List Token) : o.through ts rest' = o.through ts rest := by
  induction ts generalizing o with
  | nil => rfl
  | cons t ts ih => rw [through, through, step_congr (succeeds_append h ts), ih]

end Outline

namespace Likeness

/-! ### From one likeness to another -/

variable {L L' : Likeness} {extra : List Syntax.Node}

/-- One likeness is as strong as another one, where no clause is being read. -/
structure Weakens (L L' : Likeness) : Prop where
  typeName : ∀ {e e' : Extent}, L.typeName e e' → L'.typeName e e'
  clause : ∀ {n n' : Naming} {s s' : Option Nat}, L.clause n s n' s' → L'.clause n s n' s'

variable (hw : Weakens L L')

include hw

theorem Shown.mono {x y : Syntax.Node} (h : L.Shown x y) : L'.Shown x y := by
  cases h with
  | statement h => exact .statement (hw.clause h)
  | block h => exact .block (hw.clause h) _ _ _ _ _ _
  | type k h => exact .type k (hw.typeName h) _ _ _ _ _ _ _ _

theorem Found.mono {xs ys : List Syntax.Node} (h : L.Found extra xs ys) : L'.Found extra xs ys := by
  obtain ⟨l, hl, hall⟩ := h
  exact ⟨l, hl, hall.imp fun _ _ => Shown.mono hw⟩

theorem Owned.mono {w w' : Owner} (h : L.Owned w w') : L'.Owned w w' := by
  cases h with
  | nothing => exact .nothing
  | type k s s' h => exact .type k s s' (hw.typeName h)
  | clause h => exact .clause (hw.clause h)

theorem Phased.mono {c : Content} {p p' : Phase} (h : L.Phased c p p') (hn : ∀ n, p ≠ .naming n) : L'.Phased c p p' := by
  cases h with
  | ready h m => exact .ready h m
  | busy w => exact .busy w
  | creating => exact .creating
  | heading k s s' h =>
      refine .heading k s s' ?_
      cases h with
      | none => exact .none
      | some h => exact .some (hw.typeName h)
  | naming => exact absurd rfl (hn _)

/-- The phase of a frame gives way to one that is alike in another way. -/
theorem Framed.mono {f f' : Frame} (h : L.Framed extra f f') {p p' : Phase} (hp : L'.Phased f.content p p') :
    L'.Framed extra (f.enter p) (f'.enter p') :=
  ⟨h.bracket, h.owner.mono hw, h.content, hp, h.found.mono hw⟩

theorem Stacked.mono_of_ne {f f' : Frame} {r r' : List Frame} (h : L.Stacked extra f r f' r') (hn : ∀ n, f.phase ≠ .naming n) :
    L'.Stacked extra f r f' r' := by
  induction r generalizing f f' r' with
  | nil =>
      cases h with
      | bottom h => exact .bottom (h.mono hw (h.phase.mono hw hn))
  | cons g r ih =>
      cases h with
      | above h hg hr => exact .above (h.mono hw (h.phase.mono hw hn)) hg (ih hr hg)

theorem Stacked.mono {f f' : Frame} {r r' : List Frame} (h : L.Stacked extra f r f' r') {p p' : Phase}
    (hp : L'.Phased f.content p p') : L'.Stacked extra (f.enter p) r (f'.enter p') r' := by
  cases h with
  | bottom h => exact .bottom (h.mono hw hp)
  | above h hg hr => exact .above (h.mono hw hp) hg (hr.mono_of_ne hw hg)

end Likeness

/-! ### What a single pass finds -/

/-- What may hold of the things that a pass finds: of the places where a clause may end, of keywords, of the
names of namespaces and of types, and of clauses, each with its end if it has no body. -/
structure Trait where
  place : Nat → Prop
  keyword : Extent → Prop
  spaceName : Extent → Prop
  typeName : Extent → Prop
  clause : Naming → Option Nat → Prop

namespace Trait

variable (P : Trait)

/-- It holds of a clause of which the name is being read. -/
structure Live (n : Naming) : Prop where
  keyword : P.keyword n.keyword
  name : ∀ e ∈ n.name, P.spaceName e

/-- What holds of a clause while its name is read holds of it when it ends. -/
structure Lawful : Prop where
  ends : ∀ {n : Naming} {p : Nat}, P.Live n → P.place p → P.clause n (some p)
  opens : ∀ {n : Naming}, P.Live n → P.clause n none

/-- It holds of what a token can become. -/
structure Token (t : Php.Token) : Prop where
  place : P.place t.stop
  name : P.spaceName t.extent
  joins : ∀ {e : Extent}, P.spaceName e → P.spaceName ⟨e.start, t.stop⟩

/-- Outlines are alike that are the same and of which it holds. -/
def likeness : Likeness where
  place p p' := p' = p ∧ P.place p
  keyword e e' := e' = e ∧ P.keyword e
  spaceName e e' := e' = e ∧ P.spaceName e
  typeName e e' := e' = e ∧ P.typeName e
  clause n s n' s' := n' = n ∧ s' = s ∧ P.clause n s

variable {P}

theorem Live.of_likeness {n n' : Naming} (h : P.likeness.Live n n') : n' = n ∧ P.Live n := by
  obtain ⟨kw, name, j⟩ := n
  obtain ⟨kw', name', j'⟩ := n'
  obtain ⟨⟨hkw, hk⟩, hname, hj⟩ := h
  dsimp only at hkw hname hj
  subst hkw hj
  cases hname with
  | none => exact ⟨rfl, hk, by simp⟩
  | some he =>
      obtain ⟨rfl, he⟩ := he
      exact ⟨rfl, hk, by simpa using he⟩

theorem Live.likeness {n : Naming} (h : P.Live n) : P.likeness.Live n n := by
  obtain ⟨kw, name, j⟩ := n
  obtain ⟨hk, hname⟩ := h
  refine ⟨⟨rfl, hk⟩, ?_, rfl⟩
  cases name with
  | none => exact .none
  | some e => exact .some ⟨rfl, hname e rfl⟩

theorem Lawful.likeness (h : P.Lawful) : P.likeness.Lawful where
  ends := by
    rintro n n' p p' hn ⟨rfl, hp⟩
    obtain ⟨rfl, hn⟩ := Live.of_likeness hn
    exact ⟨rfl, rfl, h.ends hn hp⟩
  opens := by
    intro n n' hn
    obtain ⟨rfl, hn⟩ := Live.of_likeness hn
    exact ⟨rfl, rfl, h.opens hn⟩

theorem Token.likeness {t : Php.Token} (h : P.Token t) : Likeness.Token (L := P.likeness) t t :=
  ⟨rfl, Iff.rfl, ⟨rfl, h.place⟩, ⟨rfl, h.name⟩, by
    rintro e e' ⟨rfl, he⟩
    exact ⟨rfl, h.joins he⟩⟩

variable (P) in
/-- It holds of all that has been found and begun. -/
def Holds (o : Outline) : Prop :=
  P.likeness.Matched [] o o

theorem holds_start (h : P.place 0) : P.Holds Outline.start :=
  ⟨⟨.bottom ⟨rfl, .nothing, rfl, .ready rfl false, ⟨[], rfl, .nil⟩⟩, rfl, h⟩, rfl, h⟩

theorem Holds.step (hP : P.Lawful) {o : Outline} (h : P.Holds o) {t : Php.Token} (ht : P.Token t) (rest : List Php.Token)
    (hkey : o.Begins t (Outline.nextLexeme rest) → P.keyword t.extent) (hname : o.Names t → P.typeName t.extent) :
    P.Holds (o.step t rest) :=
  Likeness.Matched.step hP.likeness h ht.likeness rfl (fun hb => ⟨rfl, hkey hb⟩) fun hn => ⟨rfl, hname hn⟩

/-- Of the keywords and names it has to be known only what holds of them where they are such. -/
theorem Holds.through (hP : P.Lawful) {o : Outline} (h : P.Holds o) {ts rest : List Php.Token} (htoken : ∀ t ∈ ts, P.Token t)
    (hkey : ∀ as t bs, ts = as ++ t :: bs → (o.through as (t :: bs ++ rest)).Begins t (Outline.nextLexeme (bs ++ rest)) →
      P.keyword t.extent)
    (hname : ∀ as t bs, ts = as ++ t :: bs → (o.through as (t :: bs ++ rest)).Names t → P.typeName t.extent) :
    P.Holds (o.through ts rest) := by
  induction ts generalizing o with
  | nil => exact h
  | cons t ts ih =>
      have hstep := h.step hP (htoken t List.mem_cons_self) (ts ++ rest) (hkey [] t ts rfl) (hname [] t ts rfl)
      refine ih hstep (fun u hu => htoken u (List.mem_cons_of_mem t hu)) (fun as u bs hts => ?_) (fun as u bs hts => ?_)
      · subst hts
        have hk := hkey (t :: as) u bs rfl
        rwa [Outline.through, ← List.append_assoc] at hk
      · subst hts
        have hn := hname (t :: as) u bs rfl
        rwa [Outline.through, ← List.append_assoc] at hn

theorem Holds.run (hP : P.Lawful) {o : Outline} (h : P.Holds o) {ts : List Php.Token} (htoken : ∀ t ∈ ts, P.Token t)
    (hkey : ∀ t ∈ ts, P.keyword t.extent) (hname : ∀ t ∈ ts, P.typeName t.extent) : P.Holds (o.run ts) := by
  rw [Outline.run_eq_through]
  refine h.through hP htoken (fun as t bs hts _ => hkey t ?_) (fun as t bs hts _ => hname t ?_)
  all_goals
    rw [hts]
    exact List.mem_append_right _ List.mem_cons_self

theorem forall₂_shown (hP : P.Lawful) {o : Outline} (h : P.likeness.Alike [] o o) :
    List.Forall₂ P.likeness.Shown (shown o.nodes) (shown o.nodes) := by
  obtain ⟨l, hl, hall⟩ := h.nodes hP.likeness
  rw [List.nil_append] at hl
  rwa [← hl] at hall

end Trait

end Namesake.Php
