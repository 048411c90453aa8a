import Namesake.Proofs.Passes
import Namesake.Proofs.Reading

/-! The name of a type gives way to another one. The pass does with the new name what it did with the old one, so all that it finds is
found again: what stands in front of the name in its place, what stands behind it as far on as the name has grown. -/

namespace Namesake.Php

open Syntax

/-! ### Where tokens stand -/

theorem Ordered.before {as bs : List Token} {t u : Token} (h : Ordered (as ++ t :: bs)) (hu : u ∈ as) : u.stop ≤ t.start :=
  (List.pairwise_append.mp h.apart).2.2 u hu t List.mem_cons_self

theorem Ordered.after {as bs : List Token} {t u : Token} (h : Ordered (as ++ t :: bs)) (hu : u ∈ bs) : t.stop ≤ u.start :=
  (List.pairwise_cons.mp (List.pairwise_append.mp h.apart).2.1).1 u hu

theorem Ordered.left {as bs : List Token} (h : Ordered (as ++ bs)) : Ordered as :=
  ⟨fun t ht => h.solid t (List.mem_append_left _ ht), (List.pairwise_append.mp h.apart).1⟩

theorem Ordered.right {as bs : List Token} (h : Ordered (as ++ bs)) : Ordered bs :=
  ⟨fun t ht => h.solid t (List.mem_append_right _ ht), (List.pairwise_append.mp h.apart).2.1⟩

theorem Ordered.tail {ts : List Token} {t : Token} (h : Ordered (t :: ts)) : Ordered ts :=
  ⟨fun u hu => h.solid u (List.mem_cons_of_mem t hu), (List.pairwise_cons.mp h.apart).2⟩

theorem Ordered.stop_le {ts : List Token} {t u : Token} (h : Ordered (t :: ts)) (hu : u ∈ ts) : t.stop ≤ u.start :=
  (List.pairwise_cons.mp h.apart).1 u hu

theorem Ordered.solid_of_split {as bs : List Token} {t : Token} (h : Ordered (as ++ t :: bs)) : t.start < t.stop :=
  h.solid t (List.mem_append_right _ List.mem_cons_self)

/-- What stands somewhere from `b` on stands as far from `b'`. -/
def Moves (b b' p p' : Nat) : Prop :=
  ∃ k, p = b + k ∧ p' = b' + k

/-- A piece of a text has moved as a whole. -/
structure Extent.Moves (b b' : Nat) (e e' : Extent) : Prop where
  start : Php.Moves b b' e.start e'.start
  stop : Php.Moves b b' e.stop e'.stop

/-- A token has moved. -/
structure Token.Moves (b b' : Nat) (t t' : Token) : Prop where
  lexeme : t'.lexeme = t.lexeme
  extent : t.extent.Moves b b' t'.extent

theorem moves_self (b b' : Nat) : Moves b b' b b' :=
  ⟨0, rfl, rfl⟩

theorem Token.Moves.short {b b' : Nat} {t t' : Token} (h : t.Moves b b' t') :
    t'.stop - t'.start ≤ Outline.strayLimit ↔ t.stop - t.start ≤ Outline.strayLimit := by
  obtain ⟨i, hi, hi'⟩ := h.extent.start
  obtain ⟨j, hj, hj'⟩ := h.extent.stop
  simp only [Token.extent] at hi hi' hj hj'
  omega

/-! ### Where what is found stems from -/

/-- Keywords and names stem from tokens among `ts` that the pass takes for such. -/
def origins (ts : List Token) : Trait where
  place _ := True
  keyword e := ∃ as t bs, ts = as ++ t :: bs ∧ t.extent = e ∧ (Outline.start.through as (t :: bs)).Begins t (Outline.nextLexeme bs)
  spaceName _ := True
  typeName e := ∃ as t bs, ts = as ++ t :: bs ∧ t.extent = e ∧ (Outline.start.through as (t :: bs)).Names t
  clause n _ := ∃ as t bs, ts = as ++ t :: bs ∧ t.extent = n.keyword ∧
    (Outline.start.through as (t :: bs)).Begins t (Outline.nextLexeme bs)

theorem origins_holds (ts : List Token) : (origins ts).Holds (Outline.start.run ts) := by
  rw [Outline.run_eq_through]
  refine (Trait.holds_start trivial).through ⟨fun h _ => h.keyword, fun h => h.keyword⟩ (fun t _ => ⟨trivial, trivial, fun _ => trivial⟩)
    (fun as t bs hts hb => ?_) fun as t bs hts hn => ?_
  · rw [List.append_nil, List.append_nil] at hb
    exact ⟨as, t, bs, hts, rfl, hb⟩
  · rw [List.append_nil] at hn
    exact ⟨as, t, bs, hts, rfl, hn⟩

/-! ### What stands in front -/

/-- All that is found stands in front of a place. -/
def ahead (a : Nat) : Trait where
  place p := p ≤ a
  keyword e := e.start < a ∧ e.stop ≤ a
  spaceName e := e.stop ≤ a
  typeName e := e.start < a ∧ e.stop ≤ a
  clause n s := n.keyword.start < a ∧ n.keyword.stop ≤ a ∧ (∀ e ∈ n.name, e.stop ≤ a) ∧ ∀ p ∈ s, p ≤ a

theorem ahead_lawful (a : Nat) : (ahead a).Lawful where
  ends h hp := ⟨h.keyword.1, h.keyword.2, h.name, fun _ hq => Option.some.inj hq ▸ hp⟩
  opens h := ⟨h.keyword.1, h.keyword.2, h.name, by simp⟩

/-- What the pass has found when it comes to a token stands in front of it. -/
theorem ahead_holds {as bs : List Token} {t : Token} (h : Ordered (as ++ t :: bs)) (rest : List Token) :
    (ahead t.start).Holds (Outline.start.through as rest) := by
  have hu {u : Token} (hu : u ∈ as) : u.start < t.start ∧ u.stop ≤ t.start := by
    have hsolid := h.solid u (List.mem_append_left _ hu)
    have hbefore := h.before hu
    omega
  have hmem {cs ds : List Token} {u : Token} (hsplit : as = cs ++ u :: ds) : u ∈ as := by
    rw [hsplit]
    exact List.mem_append_right _ List.mem_cons_self
  exact (Trait.holds_start (Nat.zero_le _)).through (ahead_lawful _) (fun u hu' => ⟨(hu hu').2, (hu hu').2, fun _ => (hu hu').2⟩)
    (fun _ _ _ hsplit _ => hu (hmem hsplit)) fun _ _ _ hsplit _ => hu (hmem hsplit)

/-! ### The new name -/

/-- Texts in which the name `t` has given way to `t'`. -/
def renamed (t t' : Token) : Likeness where
  place := Moves t.stop t'.stop
  keyword := Extent.Moves t.stop t'.stop
  spaceName := Extent.Moves t.stop t'.stop
  typeName e e' := e' = e ∧ (ahead t.start).typeName e ∨ e = t.extent ∧ e' = t'.extent ∨ e.Moves t.stop t'.stop e'
  clause n s n' s' := n' = n ∧ s' = s ∧ (ahead t.start).clause n s ∨
    n.keyword.Moves t.stop t'.stop n'.keyword ∧ Option.Rel (Extent.Moves t.stop t'.stop) n.name n'.name ∧
      Option.Rel (Moves t.stop t'.stop) s s'

theorem renamed_lawful (t t' : Token) : (renamed t t').Lawful where
  ends h hp := .inr ⟨h.keyword, h.name, .some hp⟩
  opens h := .inr ⟨h.keyword, h.name, .none⟩

theorem renamed_plain {t t' u u' : Token} (h : u.Moves t.stop t'.stop u') : Likeness.Plain (L := renamed t t') u u' where
  lexeme := h.lexeme
  short := h.short
  place := h.extent.stop
  name := h.extent
  joins he := ⟨he.start, h.extent.stop⟩
  keyword := h.extent
  typeName := .inr (.inr h.extent)

theorem Outline.Names.exists_head {o : Outline} {t : Token} (h : o.Names t) :
    ∃ k s, o.top.phase = .heading ⟨some k, s, none⟩ ∧ ∀ (t' : Token) (rest : List Token), t'.lexeme.isWord →
      o.step t' rest = { o.enter (.heading ⟨some k, s, some t'.extent⟩) with last := t'.stop, anchor := t'.stop } := by
  obtain ⟨-, hphase⟩ := h
  cases hp : o.top.phase with
  | heading h =>
      rw [hp] at hphase
      obtain ⟨kind, s, name⟩ := h
      obtain ⟨hkind, rfl⟩ := hphase
      obtain ⟨k, rfl⟩ := Option.isSome_iff_exists.mp hkind
      refine ⟨k, s, rfl, fun t' rest hw => ?_⟩
      obtain ⟨w, hl⟩ := Lexeme.exists_of_isWord hw
      rw [step_of_code (by rw [hl]; simp [Lexeme.isComment])]
      simp only [coded, hp, inHead, hl]
      rfl
  | _ => rw [hp] at hphase; exact hphase.elim

theorem renamed_run {as bs bs' : List Token} {t t' : Token} (ho : Ordered (as ++ t :: bs))
    (hn : (Outline.start.through as (t :: bs)).Names t) (hw : t'.lexeme.isWord)
    (hbs : List.Forall₂ (Token.Moves t.stop t'.stop) bs bs') :
    List.Forall₂ (renamed t t').Shown (shown (Outline.start.run (as ++ t :: bs)).nodes)
      (shown (Outline.start.run (as ++ t' :: bs')).nodes) := by
  have hword {u : Token} (hu : u.lexeme.isWord) (us : List Token) : ∃ w, Outline.nextLexeme (u :: us) = some (.word w) := by
    obtain ⟨w, hl⟩ := Lexeme.exists_of_isWord hu
    exact ⟨w, by simp [Outline.nextLexeme, hl, Lexeme.isComment]⟩
  obtain ⟨w, hnext⟩ := hword hn.1 bs
  obtain ⟨w', hnext'⟩ := hword hw bs'
  have hthrough : Outline.start.through as (t' :: bs') = Outline.start.through as (t :: bs) :=
    Outline.through_congr (.inr ⟨w, w', hnext, hnext'⟩) _ _
  have hahead := ahead_holds ho (t :: bs)
  rw [Outline.run_append, Outline.run_append, hthrough]
  generalize Outline.start.through as (t :: bs) = o at hn hahead
  obtain ⟨k, s, hphase, hstep⟩ := hn.exists_head
  rw [Outline.run, Outline.run, hstep t bs hn.1, hstep t' bs' hw]
  have hweak : Likeness.Weakens (ahead t.start).likeness (renamed t t') := by
    constructor
    · rintro e e' ⟨heq, h⟩
      exact .inl ⟨heq, h⟩
    · rintro n n' s s' ⟨heq, hs, h⟩
      exact .inl ⟨heq, hs, h⟩
  have hstart : (renamed t t').Matched []
      { o.enter (.heading ⟨some k, s, some t.extent⟩) with last := t.stop, anchor := t.stop }
      { o.enter (.heading ⟨some k, s, some t'.extent⟩) with last := t'.stop, anchor := t'.stop } := by
    refine ⟨⟨hahead.stack.mono hweak ?_, moves_self _ _⟩, moves_self _ _⟩
    exact .heading _ _ _ (.some (.inr (.inl ⟨rfl, rfl⟩)))
  obtain ⟨l, hl, hall⟩ := (hstart.run (renamed_lawful t t') (hbs.imp fun _ _ => renamed_plain)).nodes (renamed_lawful t t')
  rw [List.nil_append] at hl
  rwa [hl]

end Namesake.Php
