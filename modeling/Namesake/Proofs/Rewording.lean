import Namesake.Proofs.HeaderEnds

/-! The header of a clause gives way to another one, or a text gets its first clause. The pass reads the new name where it
read the old one, and what it finds in the rest of the text it finds again, as far on as the header has grown. -/

namespace Namesake.Php

open Syntax

/-! ### The clause with its new header -/

/-- Texts in which the clause that begins at `a` has a new header with a name. -/
def reworded (a h h' : Nat) (braced : Bool) (name : Extent) : Likeness where
  place _ _ := True
  keyword e _ := e.start = a → braced = true ∧ e.stop ≠ h
  spaceName e e' := e.stop = h → e' = name
  typeName e e' := e' = e ∧ (ahead a).typeName e ∨ e.Moves h h' e'
  clause n stop n' _ := n.IsAt a h braced stop → n'.name = some name

theorem reworded_lawful (a h h' : Nat) (braced : Bool) (name : Extent) : (reworded a h h' braced name).Lawful where
  ends hn _ hat := by
    have hb := (hn.keyword hat.start).1
    rw [← hat.braced] at hb
    cases hb
  opens := by
    intro n n' hn hat
    obtain ⟨kw, nm, j⟩ := n
    obtain ⟨kw', nm', j'⟩ := n'
    have hname : Option.Rel (reworded a h h' braced name).spaceName nm nm' := hn.name
    cases hname with
    | none => exact absurd hat.headerStop (hn.keyword hat.start).2
    | some he => exact congrArg some (he hat.headerStop)

theorem weakens_reworded (a h h' : Nat) (braced : Bool) (name : Extent) :
    Likeness.Weakens (ahead a).likeness (reworded a h h' braced name) where
  typeName he := .inl he
  clause hc hat := absurd hat.start hc.2.2.1.ne

theorem reworded_plain {a h h' : Nat} {braced : Bool} {name : Extent} (ha : a < h) {t t' : Token} (ht : t.start < t.stop)
    (hm : t.Moves h h' t') : Likeness.Plain (L := reworded a h h' braced name) t t' := by
  have hstart : h ≤ t.start := by
    obtain ⟨k, hk, -⟩ := hm.extent.start
    simp only [Token.extent] at hk
    omega
  have hstop : t.stop ≠ h := by omega
  have hkey : t.start ≠ a := by omega
  exact ⟨⟨hm.lexeme, hm.short, trivial, fun h => absurd h hstop, fun _ h => absurd h hstop⟩, fun h => absurd h hkey,
    .inr hm.extent⟩

theorem forall₂_plain {a h h' : Nat} {braced : Bool} {name : Extent} (ha : a < h) {ts ts' : List Token} (hts : Ordered ts)
    (hm : List.Forall₂ (Token.Moves h h') ts ts') :
    List.Forall₂ (Likeness.Plain (L := reworded a h h' braced name)) ts ts' := by
  induction hm with
  | nil => exact .nil
  | cons ht _ ih => exact .cons (reworded_plain ha (hts.solid _ List.mem_cons_self) ht) (ih (hts.tail))

/-- What a pass finds in the rest of a text that has a new header it finds in the rest of the text with the old one. -/
theorem reworded_rest {a h h' : Nat} {braced : Bool} {name : Extent} (ha : a < h) {ts ts' : List Token} (hts : Ordered ts)
    (hm : List.Forall₂ (Token.Moves h h') ts ts') {o o' : Outline} (ho : (reworded a h h' braced name).Matched [] o o') :
    List.Forall₂ (reworded a h h' braced name).Shown (shown (o.run ts).nodes) (shown (o'.run ts').nodes) := by
  have hL := reworded_lawful a h h' braced name
  obtain ⟨l, hl, hall⟩ := (ho.run hL (forall₂_plain ha hts hm)).nodes hL
  rw [List.nil_append] at hl
  rwa [hl]

/-- A clause with a body and no name gets one, if its body follows its keyword. -/
theorem reworded_bare {g : Frame} {r : List Frame} {a h h' : Nat} (ha : a < h) (hg : (ahead a).likeness.Stacked [] g r g r)
    {n n' : Naming} {e : Extent} (hname : n'.name = some e) {ts ts' : List Token} (hts : Ordered ts)
    (hm : List.Forall₂ (Token.Moves h h') ts ts') (hbrace : Outline.nextLexeme ts = some (.opening .brace)) (l x l' x' : Nat) :
    List.Forall₂ (reworded a h h' true e).Shown (shown ((Outline.reading g r n l x).run ts).nodes)
      (shown ((Outline.reading g r n' l' x').run ts').nodes) := by
  induction hm generalizing l x l' x' with
  | nil => cases hbrace
  | @cons t t' ts ts' ht hm ih =>
      have hts' : Ordered ts := hts.tail
      rw [Outline.run, Outline.run]
      by_cases hcomment : t.lexeme.isComment
      · obtain ⟨broken, hlex⟩ := Lexeme.exists_of_isComment hcomment
        rw [Outline.reading_comment hlex, Outline.reading_comment (ht.lexeme.trans hlex)]
        refine ih hts' ?_ _ _ _ _
        rw [← hbrace]
        simp [Outline.nextLexeme, hcomment]
      · have hlex : t.lexeme = .opening .brace := by
          simpa [Outline.nextLexeme, hcomment] using hbrace
        have hlex' : t'.lexeme = .opening .brace := ht.lexeme.trans hlex
        have hstep {k : Token} (hk : k.lexeme = .opening .brace) (m : Naming) (p q : Nat) (us : List Token) :
            (Outline.reading g r m p q).step k us =
              ⟨⟨some .brace, k.start, .clause m, .statements, .ready none false, []⟩, g.enter g.content.afterBraces :: r,
                k.stop, k.stop⟩ := by
          rw [Outline.reading_step (by simp [hk, Lexeme.isComment])]
          simp only [Outline.inClause, hk]
          rfl
        rw [hstep hlex, hstep hlex']
        refine reworded_rest ha hts' hm ⟨⟨.above ?_ ?_ ?_, trivial⟩, trivial⟩
        · exact ⟨rfl, .clause fun _ => hname, rfl, .ready rfl false, [], rfl, .nil⟩
        · exact Likeness.afterBraces_ne_naming _
        · exact hg.mono (weakens_reworded _ _ _ _ _) (Likeness.phased_afterBraces _)

section

variable {as ms cs : List Token} {key : Token}
variable {h : Nat} (ho : Ordered (as ++ key :: (ms ++ cs)))
  (hb : (Outline.start.through as (key :: (ms ++ cs))).Begins key (Outline.nextLexeme (ms ++ cs)))
  (hplain : ∀ t ∈ ms, t.lexeme.inHeader) (hh : h = lastStop key.stop ms)

include ho hb hplain hh

/-- A clause without a body gets a new header: what the pass finds in the rest it finds again. -/
theorem reworded_statement (hat : ∃ x ∈ shown (Outline.start.run (as ++ key :: (ms ++ cs))).nodes, ClauseAt key.start h false x) :
    (∀ t ∈ ms.getLast?, t.lexeme = .separator → ∃ u ∈ cs.head?, u.lexeme = .leave ∨ u.lexeme.isComment) ∧
    ∀ {key' semi : Token} {ws cs' : List Token} {e : Extent}, key'.lexeme = .word "namespace" → Spelt ws e →
      semi.lexeme = .semicolon → List.Forall₂ (Token.Moves h semi.stop) cs cs' →
      List.Forall₂ (reworded key.start h semi.stop false e).Shown
        (shown (Outline.start.run (as ++ key :: (ms ++ cs))).nodes)
        (shown (Outline.start.run (as ++ key' :: (ws ++ semi :: cs'))).nodes) := by
  obtain ⟨g, r, hg, hc, hold, hnew⟩ := exists_reading ho hb
  obtain ⟨hms, hcs, hkey, hfirst, hbehind, hle⟩ := ho.behind
  rw [← hh] at hbehind hle
  rw [hold, Outline.run_append] at hat ⊢
  have hhead : Naming.Behind ⟨key.extent, none, false⟩ key.stop key.stop := ⟨by simp, fun _ => rfl, by simp⟩
  have hrun : HeaderEnd g r key.start h false _ ms _ := header_run hg hc hplain hms hfirst hkey hhead hh cs
  obtain ⟨m, y, hsep, hnodes⟩ := hrun.ends hg hc hcs hbehind (by omega) hat
  refine ⟨hsep, fun {key' semi ws cs' e} hl hspelt hsemi hmoves => ?_⟩
  have hcode : ¬ semi.lexeme.isComment := by simp [hsemi, Lexeme.isComment]
  rw [hnodes, hnew key' _ hl (hspelt.nextLexeme _), Outline.run_append, hspelt.through, Outline.run,
    Outline.reading_semicolon hsemi rfl]
  have hready : (reworded key.start h semi.stop false e).Stacked [] (g.enter (.ready none false)) r (g.enter (.ready none false)) r :=
    hg.mono (weakens_reworded _ _ _ _ _) (Likeness.phased_ready _)
  have hclause : (reworded key.start h semi.stop false e).clause m (some h) ⟨key'.extent, some e, false⟩ (some semi.stop) :=
    fun _ => rfl
  have hstart : (reworded key.start h semi.stop false e).Matched [] ⟨g.endClause m h, r, h, y⟩
      ⟨g.endClause ⟨key'.extent, some e, false⟩ semi.stop, r, semi.stop, semi.stop⟩ :=
    ⟨⟨hready.mapTop fun _ hf => hf.endClause hclause, trivial⟩, trivial⟩
  exact reworded_rest (by omega) hcs hmoves hstart

/-- A clause with a body gets a new header. -/
theorem reworded_block {x : Syntax.Node} (hx : x ∈ shown (Outline.start.run (as ++ key :: (ms ++ cs))).nodes)
    (hat : ClauseAt key.start h true x)
    (hbrace : x.child? "name" = none → Outline.nextLexeme (ms ++ cs) = some (.opening .brace)) :
    (∀ t ∈ ms.getLast?, t.lexeme.isWord) ∧
    ∀ {key' : Token} {ws cs' : List Token} {e : Extent}, key'.lexeme = .word "namespace" → Spelt ws e →
      List.Forall₂ (Token.Moves h e.stop) cs cs' →
      List.Forall₂ (reworded key.start h e.stop true e).Shown
        (shown (Outline.start.run (as ++ key :: (ms ++ cs))).nodes)
        (shown (Outline.start.run (as ++ key' :: (ws ++ cs'))).nodes) := by
  obtain ⟨g, r, hg, hc, hold, hnew⟩ := exists_reading ho hb
  obtain ⟨hms, hcs, hkey, hfirst, hbehind, hle⟩ := ho.behind
  rw [← hh] at hbehind hle
  rw [hold, Outline.run_append] at hx ⊢
  have hhead : Naming.Behind ⟨key.extent, none, false⟩ key.stop key.stop := ⟨by simp, fun _ => rfl, by simp⟩
  have hrun : HeaderEnd g r key.start h true _ ms _ := header_run hg hc hplain hms hfirst hkey hhead hh cs
  have hrest : ∀ t ∈ cs, t.stop ≠ h ∧ t.start ≠ key.start := fun t ht => by
    have := hbehind t ht
    have := hcs.solid t ht
    omega
  have hnew' {key' : Token} {ws cs' : List Token} {e : Extent} (hl : key'.lexeme = .word "namespace") (hspelt : Spelt ws e) :
      Outline.start.run (as ++ key' :: (ws ++ cs')) =
        (Outline.reading g r ⟨key'.extent, some e, false⟩ e.stop e.stop).run cs' := by
    rw [hnew key' _ hl (hspelt.nextLexeme _), Outline.run_append, hspelt.through]
  have hnone (heq : key.stop = h) : ms = [] := hms.eq_nil_of_lastStop hfirst (hh.symm.trans heq.symm)
  cases hrun with
  | ended _ _ _ hbraced _ => cases hbraced
  | gone hgone => exact absurd hat (gone_unseen hgone (fun t ht => (hrest t ht).2) x hx)
  | reading m y heq hk hm hnil hsep =>
      rw [heq] at hx ⊢
      by_cases hname : ∀ e ∈ m.name, e.stop ≠ h
      · obtain ⟨hchild, hstop⟩ := bare_run hg hc hname y hrest x hx hat
        rw [hk] at hstop
        obtain rfl : ms = [] := hnone hstop
        obtain rfl := hnil rfl
        refine ⟨by simp, fun {key' ws cs' e} hl hspelt hmoves => ?_⟩
        rw [hnew' hl hspelt]
        exact reworded_bare (by omega) hg rfl hcs hmoves (hbrace hchild) _ _ _ _
      · push Not at hname
        obtain ⟨e₀, he₀, hstop⟩ := hname
        obtain ⟨hj, -⟩ := hm.last e₀ he₀ hstop
        refine ⟨fun t ht => (hsep t ht).2.resolve_right fun hne => hne e₀ he₀ hstop,
          fun {key' ws cs' e} hl hspelt hmoves => ?_⟩
        rw [hnew' hl hspelt]
        refine reworded_rest (by omega) hcs hmoves ⟨⟨hg.mono (weakens_reworded _ _ _ _ _) (.naming hc ?_), trivial⟩, trivial⟩
        have hkeep : key.stop ≠ h := fun heq => by
          rw [hnil (hnone heq)] at he₀
          cases he₀
        refine ⟨fun _ => ⟨rfl, by rw [hk]; exact hkeep⟩, ?_, hj.symm⟩
        rw [Option.mem_def.mp he₀]
        exact .some fun _ => rfl

end

/-! ### A text that gets its first clause -/

/-- Texts of which the second one has more in front. -/
def preceded (h h' : Nat) : Likeness where
  place _ _ := True
  keyword _ _ := True
  spaceName _ _ := True
  typeName := Extent.Moves h h'
  clause _ _ _ _ := True

theorem preceded_lawful (h h' : Nat) : (preceded h h').Lawful :=
  ⟨fun _ _ => trivial, fun _ => trivial⟩

/-- An outline before anything is found. -/
def Outline.resting (last anchor : Nat) : Outline :=
  { Outline.start with last := last, anchor := anchor }

theorem resting_step {t : Token} (ht : t.lexeme = .text ∨ t.lexeme = .enter) (l x : Nat) (rest : List Token) :
    (Outline.resting l x).step t rest = Outline.resting t.stop t.stop := by
  rcases ht with ht | ht
  all_goals
    rw [Outline.step_of_code (by simp [ht, Lexeme.isComment])]
    simp only [Outline.resting, Outline.start, Outline.coded, Outline.between, Outline.inside, ht]
    try rfl

theorem resting_run {ts : List Token} (hts : ∀ t ∈ ts, t.lexeme = .text ∨ t.lexeme = .enter) (rest : List Token) :
    ∃ l x, Outline.start.run (ts ++ rest) = (Outline.resting l x).run rest := by
  have hrun (l x : Nat) : ∃ l' x', (Outline.resting l x).run (ts ++ rest) = (Outline.resting l' x').run rest := by
    induction ts generalizing l x with
    | nil => exact ⟨l, x, rfl⟩
    | cons t ts ih =>
        rw [List.cons_append, Outline.run, resting_step (hts t List.mem_cons_self)]
        exact ih (fun u hu => hts u (List.mem_cons_of_mem t hu)) _ _
  exact hrun 0 0

/-- A clause in front of all code is found first, and the rest is found again. -/
theorem preceded_run {fs cs cs' ws : List Token} (hfs : ∀ t ∈ fs, t.lexeme = .text ∨ t.lexeme = .enter) {key semi : Token}
    (hkey : key.lexeme = .word "namespace") {e : Extent} (hspelt : Spelt ws e) (hsemi : semi.lexeme = .semicolon) {h h' : Nat}
    (hm : List.Forall₂ (Token.Moves h h') cs cs') :
    ∃ x l, ClauseNode x ⟨key.extent, some e, false⟩ (some semi.stop) ∧
      shown (Outline.start.run (fs ++ key :: (ws ++ semi :: cs'))).nodes = [x] ++ l ∧
      List.Forall₂ (preceded h h').Shown (shown (Outline.start.run (fs ++ cs)).nodes) l := by
  obtain ⟨w, hnext⟩ := hspelt.nextLexeme (semi :: cs')
  obtain ⟨i, j, hold⟩ := resting_run hfs cs
  obtain ⟨k, y, hnew⟩ := resting_run hfs (key :: (ws ++ semi :: cs'))
  have hbegins : (Outline.resting k y).Begins key (Outline.nextLexeme (ws ++ semi :: cs')) :=
    ⟨hkey, by simp [hnext], rfl⟩
  rw [hold, hnew, Outline.run, Outline.step_of_code (by simp [hkey, Lexeme.isComment]), hbegins.coded_eq]
  have hread : (Outline.reading Outline.start.top [] ⟨key.extent, none, false⟩ key.stop key.stop).run (ws ++ semi :: cs') =
      (⟨Outline.start.top.endClause ⟨key.extent, some e, false⟩ semi.stop, [], semi.stop, semi.stop⟩ : Outline).run cs' := by
    rw [Outline.run_append, hspelt.through, Outline.run, Outline.reading_semicolon hsemi rfl]
  have hstart : (preceded h h').Matched
      [.mk Tree.clauseKind key.start semi.stop none (Frame.clauseFront ⟨key.extent, some e, false⟩)] (Outline.resting i j)
      ⟨Outline.start.top.endClause ⟨key.extent, some e, false⟩ semi.stop, [], semi.stop, semi.stop⟩ := by
    refine ⟨⟨.bottom ⟨rfl, .nothing, rfl, .ready rfl false, [], ?_, .nil⟩, trivial⟩, trivial⟩
    exact shown_statement ⟨key.extent, some e, false⟩ semi.stop
  have hplain : List.Forall₂ (Likeness.Plain (L := preceded h h')) cs cs' :=
    hm.imp fun _ _ ht => ⟨⟨ht.lexeme, ht.short, trivial, trivial, fun _ => trivial⟩, trivial, ht.extent⟩
  obtain ⟨l, hl, hall⟩ := (hstart.run (preceded_lawful h h') hplain).nodes (preceded_lawful h h')
  refine ⟨_, l, clauseNode_statement ⟨key.extent, some e, false⟩ semi.stop, ?_, hall⟩
  exact (congrArg (fun o : Outline => shown o.nodes) hread).trans hl

end Namesake.Php
