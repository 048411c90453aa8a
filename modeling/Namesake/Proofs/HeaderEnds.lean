import Namesake.Proofs.Headers

/-! Where a clause ends. A clause without a body ends with its header, and the pass goes on behind it as if the code in front of
it said no more; a clause with a body is found with the header that was read; and every header ends with a token. -/

namespace Namesake.Php

open Syntax

/-! ### A clause without a body -/

section

variable {g : Frame} {r : List Frame} {a : Nat}

/-- It is a clause without a body that is read on after the place where its header ends. -/
def late (a h : Nat) : Trait :=
  lacks a h false (· ≠ h) (fun _ => True) fun _ => True

theorem late_lawful (a h : Nat) : (late a h).Lawful where
  ends _ hp hat := hp hat.headerStop
  opens _ hat := Bool.noConfusion hat.braced

theorem late_live {a h : Nat} (n : Naming) : (late a h).likeness.Live n n :=
  Trait.Live.likeness ⟨trivial, fun _ _ => trivial⟩

/-- After a clause a statement may begin. -/
theorem ended_coded (hc : g.content = .statements) (n : Naming) (p l x : Nat) (t : Token) (next : Option Lexeme) :
    (⟨g.endClause n p, r, l, x⟩ : Outline).coded t next =
      (⟨g.endClause n p, r, l, x⟩ : Outline).between t next none false := by
  obtain ⟨b, s, w, c, ph, fs⟩ := g
  obtain rfl : c = .statements := hc
  rfl

/-- What a token does to a clause behind the last token, which ends at `l`: nothing hangs on that end, the
clause ends there, or the token is passed over. -/
inductive ReadingCase (g : Frame) (r : List Frame) (n : Naming) (l x : Nat) (t : Token) (next : Option Lexeme) : Prop
  | free (heq : ∀ k, (Outline.reading g r n k x).coded t next = { (Outline.reading g r n l x).coded t next with last := k })
  | ends (hname : n.name.isSome) (hj : n.joined = false)
      (heq : (Outline.reading g r n l x).coded t next = (⟨g.endClause n l, r, l, x⟩ : Outline).coded t next)
  | passed (heq : (Outline.reading g r n l x).coded t next = Outline.reading g r n l x)

section

variable (hc : g.content = .statements) {n : Naming} {l x : Nat} {t : Token} {next : Option Lexeme}

theorem reading_coded (n : Naming) (l x : Nat) (t : Token) (next : Option Lexeme) :
    (Outline.reading g r n l x).coded t next = (Outline.reading g r n l x).inClause n t next := rfl

/-- Before its end a clause is settled if its name is whole. -/
theorem settle_naming (hname : n.name.isSome) (hj : n.joined = false) (l : Nat) :
    (g.enter (.naming n)).settle l = g.endClause n l := by
  simp only [Frame.settle, Frame.enter, hname, hj, Bool.not_false, Bool.and_self, if_true]
  rfl

theorem settle_unready (hn : ¬ (n.name.isSome ∧ n.joined = false)) (l : Nat) :
    (g.enter (.naming n)).settle l = g.enter (.naming n) := by
  simp only [Frame.settle, Frame.enter]
  rw [if_neg (by simpa using hn)]

include hc

theorem reading_case_stray (hstray : (Outline.reading g r n l x).inClause n t next = (Outline.reading g r n l x).strayed n t next) :
    ReadingCase g r n l x t next := by
  cases hover : Outline.isOverlooked n t next with
  | true => exact .passed (by rw [reading_coded, hstray, Outline.strayed, if_pos hover])
  | false =>
      have heq : (Outline.reading g r n l x).coded t next = (⟨g.endClause n l, r, l, x⟩ : Outline).coded t next := by
        rw [reading_coded, hstray, Outline.strayed, if_neg (by rw [hover]; exact Bool.false_ne_true), ended_coded hc]
        rfl
      simp only [Outline.isOverlooked, Bool.or_eq_false_iff] at hover
      obtain ⟨⟨⟨⟨hj, hname⟩, -⟩, -⟩, -⟩ := hover
      exact .ends (by rwa [Option.isNone_eq_false_iff] at hname) hj heq

theorem reading_case_word {w : String} (hlex : t.lexeme = .word w) : ReadingCase g r n l x t next := by
  cases hname : n.name with
  | none =>
      refine .free fun k => ?_
      simp only [reading_coded, Outline.inClause, hlex, hname]
      rfl
  | some e =>
      cases hj : n.joined with
      | true =>
          refine .free fun k => ?_
          simp only [reading_coded, Outline.inClause, hlex, hname, hj, if_true]
          rfl
      | false => exact reading_case_stray hc (by simp only [Outline.inClause, hlex, hname, hj]; rfl)

theorem reading_case_closing {b : Bracket} (hlex : t.lexeme = .closing b) : ReadingCase g r n l x t next := by
  have hclosed (k : Nat) : (Outline.reading g r n k x).coded t next = (Outline.reading g r n k x).closed b t := by
    rw [reading_coded]
    simp only [Outline.inClause, hlex]
  by_cases hready : n.name.isSome ∧ n.joined = false
  · have hended : (⟨g.endClause n l, r, l, x⟩ : Outline).coded t next = (⟨g.endClause n l, r, l, x⟩ : Outline).closed b t := by
      rw [ended_coded hc]
      simp only [Outline.between, Outline.inside, hlex]
    have hagain : (g.endClause n l).settle l = g.endClause n l := rfl
    -- Both close the bracket of the frame in which the clause has ended; where there is none, nothing happens.
    cases hunwind : Outline.unwind b (g.endClause n l) r with
    | none =>
        refine .passed ?_
        rw [hclosed]
        simp only [Outline.closed, Outline.reading, settle_naming hready.1 hready.2, hunwind]
        rfl
    | some found =>
        obtain ⟨f, _ | ⟨p, rest⟩⟩ := found
        · refine .passed ?_
          rw [hclosed]
          simp only [Outline.closed, Outline.reading, settle_naming hready.1 hready.2, hunwind]
          rfl
        · refine .ends hready.1 hready.2 ?_
          rw [hclosed, hended]
          simp only [Outline.closed, Outline.reading, settle_naming hready.1 hready.2, hagain, hunwind]
  · refine .free fun k => ?_
    rw [hclosed, hclosed]
    unfold Outline.closed
    simp only [Outline.reading, settle_unready hready]
    rcases Outline.unwind b (g.enter (.naming n)) r with _ | ⟨f, _ | ⟨p, rest⟩⟩ <;> rfl

theorem reading_case (hcode : ¬ t.lexeme.isComment) (hleave : t.lexeme ≠ .leave) : ReadingCase g r n l x t next := by
  cases hlex : t.lexeme with
  | comment broken => rw [hlex] at hcode; exact absurd rfl hcode
  | leave => exact absurd hlex hleave
  | word w => exact reading_case_word hc hlex
  | separator =>
      refine .free fun k => ?_
      cases hname : n.name <;> simp only [reading_coded, Outline.inClause, hlex, hname] <;> rfl
  | semicolon =>
      refine .free fun k => ?_
      cases hname : n.name <;> simp only [reading_coded, Outline.inClause, hlex, hname] <;> rfl
  | opening b =>
      cases b with
      | brace =>
          refine .free fun k => ?_
          simp only [reading_coded, Outline.inClause, hlex]
          rfl
      | paren => exact reading_case_stray hc (by simp only [Outline.inClause, hlex])
      | square => exact reading_case_stray hc (by simp only [Outline.inClause, hlex])
      | insertion => exact reading_case_stray hc (by simp only [Outline.inClause, hlex])
  | closing b => exact reading_case_closing hc hlex
  | _ => exact reading_case_stray hc (by simp only [Outline.inClause, hlex])

end

theorem late_holds {h : Nat} {o : Outline} (ho : (late a h).likeness.Alike [] o o) {p : Nat} (hp : p ≠ h) :
    (late a h).Holds { o with last := p, anchor := p } :=
  ⟨⟨ho.stack, rfl, hp⟩, rfl, hp⟩

theorem late_unseen {h : Nat} {o : Outline} (ho : (late a h).Holds o) {ts : List Token} (hts : ∀ t ∈ ts, t.stop ≠ h) :
    ∀ y ∈ shown (o.run ts).nodes, ¬ ClauseAt a h false y := by
  refine lacks_unseen (late_lawful a h) (ho.run (late_lawful a h) (fun t ht => ?_) (fun _ _ => trivial) fun _ _ => trivial).toAlike
  exact ⟨hts t ht, trivial, fun _ => trivial⟩

theorem late_reading {h : Nat} (hg : (ahead a).likeness.Stacked [] g r g r) (hc : g.content = .statements) (n : Naming)
    {l : Nat} (hl : l ≠ h) (x : Nat) : (late a h).likeness.Alike [] (Outline.reading g r n l x) (Outline.reading g r n l x) :=
  ⟨lacks_enter hg (.naming hc (late_live n)), rfl, hl⟩

theorem finish_reading (n : Naming) (l : Nat) (hn : n.name.isSome ∧ n.joined = false) :
    Outline.finish l (g.enter (.naming n)) r = Outline.finish l (g.endClause n l) r := by
  have hsettle := settle_naming (g := g) hn.1 hn.2 l
  have hagain : (g.endClause n l).settle l = g.endClause n l := rfl
  cases r with
  | nil => rw [Outline.finish, Outline.finish, hsettle, hagain]
  | cons f r => rw [Outline.finish, Outline.finish, hsettle, hagain]

theorem finish_unready (n : Naming) (l : Nat) (hn : ¬ (n.name.isSome ∧ n.joined = false)) :
    Outline.finish l (g.enter (.naming n)) r = Outline.finish l (g.enter (.busy false)) r := by
  have hsettle := settle_unready (g := g) hn l
  have hbusy : (g.enter (.busy false)).settle l = g.enter (.busy false) := rfl
  cases r with
  | nil =>
      rw [Outline.finish, Outline.finish, hsettle, hbusy]
      rfl
  | cons f r =>
      have hwhole : Outline.isWhole (g.enter (.naming n)) = Outline.isWhole (g.enter (.busy false)) := by
        simp only [Outline.isWhole, Frame.enter]
        rcases g.bracket with _ | _ | _ | _ | _ <;> rfl
      have hnot : Outline.isWhole (g.enter (.busy false)) = false := by
        simp only [Outline.isWhole, Frame.enter]
        rcases g.bracket with _ | _ | _ | _ | _ <;> rfl
      simp only [Outline.finish, hsettle, hbusy, hwhole, hnot]
      rfl

/-- Behind the place `h`, where its header may end, a clause is read up to `l` and then the tokens `ts`: the pass goes on as if
the clause had ended at `h`, or no clause is found whose header ends there. -/
inductive ReadOn (g : Frame) (r : List Frame) (a h : Nat) (n : Naming) (l x : Nat) (ts : List Token) : Prop
  | ends (hname : n.name.isSome) (hjoined : n.joined = true → ∃ t ∈ ts.head?, t.lexeme = .leave ∨ t.lexeme.isComment)
      (hnodes : ((Outline.reading g r n l x).run ts).nodes = ((⟨g.endClause n h, r, l, x⟩ : Outline).run ts).nodes)
  | unseen (hnone : ∀ y ∈ shown ((Outline.reading g r n l x).run ts).nodes, ¬ ClauseAt a h false y)

section

variable {h l x : Nat} {n : Naming} {t : Token} {ts : List Token} (hg : (ahead a).likeness.Stacked [] g r g r)
  (hc : g.content = .statements)

include hg hc

/-- At the end of the text. -/
theorem readOn_nil (hl : h ≤ l) : ReadOn g r a h n l x [] := by
  rcases Nat.eq_or_lt_of_le hl with rfl | hlt
  · by_cases hn : n.name.isSome ∧ n.joined = false
    · exact .ends hn.1 (by simp [hn.2]) (finish_reading n _ hn)
    · have hgone : (gone a h false).Holds ⟨g.enter (.busy false), r, h, x⟩ := gone_holds (lacks_enter hg (.busy false))
      have hnodes : ((Outline.reading g r n h x).run []).nodes = (⟨g.enter (.busy false), r, h, x⟩ : Outline).nodes :=
        finish_unready n h hn
      refine .unseen ?_
      rw [hnodes]
      exact lacks_unseen (gone_lawful a h false) hgone.toAlike
  · exact .unseen (lacks_unseen (late_lawful a h) (late_reading hg hc n hlt.ne' x))

/-- At the tag that ends the code. -/
theorem readOn_leave (hleave : t.lexeme = .leave) (hstop : t.stop ≠ h) (hstops : ∀ u ∈ ts, u.stop ≠ h) :
    ReadOn g r a h n l x (t :: ts) := by
  cases hname : n.name with
  | none =>
      have ho : (late a h).likeness.Alike [] ⟨g.enter (.ready none false), r, t.stop, x⟩
          ⟨g.enter (.ready none false), r, t.stop, x⟩ :=
        ⟨lacks_enter hg (Likeness.phased_ready _), rfl, hstop⟩
      refine .unseen ?_
      rw [Outline.run, Outline.reading_leave_none hleave hname]
      exact late_unseen (late_holds ho hstop) hstops
  | some e =>
      by_cases hx : x = h
      · subst hx
        have hended : (⟨g.endClause n x, r, l, x⟩ : Outline).step t ts = ⟨g.endClause n x, r, t.stop, t.stop⟩ := by
          rw [Outline.step_of_code (by simp [hleave, Lexeme.isComment]), ended_coded hc]
          simp only [Outline.between, Outline.inside, hleave]
          obtain ⟨b, s, w, c, ph, fs⟩ := g
          obtain rfl : c = .statements := hc
          rfl
        refine .ends (by rw [hname]; rfl) (fun _ => ⟨t, rfl, .inl hleave⟩) ?_
        rw [Outline.run, Outline.run, Outline.reading_leave hleave hname, hended]
      · have ho : (late a h).likeness.Alike [] ⟨g.endClause n x, r, t.stop, x⟩ ⟨g.endClause n x, r, t.stop, x⟩ :=
          ⟨lacks_endClause hg fun hat => hx hat.headerStop, rfl, hstop⟩
        refine .unseen ?_
        rw [Outline.run, Outline.reading_leave hleave hname]
        exact late_unseen (late_holds ho hstop) hstops

/-- At any other token of code. -/
theorem readOn_code (hcode : ¬ t.lexeme.isComment) (hleave : t.lexeme ≠ .leave) (hl : h ≤ l) (hstop : t.stop ≠ h)
    (hstops : ∀ u ∈ ts, u.stop ≠ h) : ReadOn g r a h n l x (t :: ts) := by
  have hlate {k : Nat} (hk : k ≠ h) := (late_reading hg hc n hk x).coded (late_lawful a h).likeness
    (Trait.Token.likeness ⟨hstop, trivial, fun _ => trivial⟩) (Outline.nextLexeme ts) (fun h => absurd h hleave)
    (fun _ => ⟨rfl, trivial⟩) fun _ => ⟨rfl, trivial⟩
  rcases Nat.eq_or_lt_of_le hl with rfl | hlt
  · have hcase : ReadingCase g r n h x t (Outline.nextLexeme ts) := reading_case hc hcode hleave
    cases hcase with
    | free heq =>
        -- The clause may as well have been read up to another place, at which no header ends.
        have ho := hlate (Nat.succ_ne_self h)
        rw [heq] at ho
        refine .unseen ?_
        rw [Outline.run, Outline.step_of_code hcode]
        exact late_unseen (late_holds ⟨ho.stack, rfl, Nat.succ_ne_self h⟩ hstop) hstops
    | ends hname hj heq =>
        refine .ends hname (by simp [hj]) ?_
        rw [Outline.run, Outline.run, Outline.step_of_code hcode, Outline.step_of_code hcode, heq]
    | passed heq =>
        refine .unseen ?_
        rw [Outline.run, Outline.step_of_code hcode, heq]
        exact late_unseen (late_holds (late_reading hg hc n (Nat.succ_ne_self h) x) hstop) hstops
  · refine .unseen ?_
    rw [Outline.run, Outline.step_of_code hcode]
    exact late_unseen (late_holds (hlate hlt.ne') hstop) hstops

/-- A clause without a body is read to its end: from the place where its header ends on, the pass goes on as if it had ended there. -/
theorem reading_run (hts : Ordered ts) (hl : h ≤ l) (hafter : ∀ t ∈ ts, l ≤ t.start) : ReadOn g r a h n l x ts := by
  induction ts generalizing l x with
  | nil => exact readOn_nil hg hc hl
  | cons t ts ih =>
      have hsolid := hts.solid t List.mem_cons_self
      have hstart := hafter t List.mem_cons_self
      have hrest : ∀ u ∈ ts, t.stop ≤ u.start := fun u hu => hts.stop_le hu
      have hstops : ∀ u ∈ ts, u.stop ≠ h := fun u hu => by
        have := hrest u hu
        have := hts.solid u (List.mem_cons_of_mem t hu)
        omega
      have hstop : t.stop ≠ h := by omega
      by_cases hcomment : t.lexeme.isComment
      · obtain ⟨broken, hlex⟩ := Lexeme.exists_of_isComment hcomment
        cases broken with
        | true =>
            have hended : (⟨g.endClause n h, r, l, x⟩ : Outline).step t ts = ⟨g.endClause n h, r, t.stop, x⟩ := by
              simp only [Outline.step, hlex, if_true]
            have hread : (Outline.reading g r n l x).step t ts = Outline.reading g r n t.stop x := by
              rw [Outline.reading_comment hlex, if_pos rfl]
            cases ih hts.tail (x := x) (by omega) hrest with
            | ends hname _ hnodes =>
                refine .ends hname (fun _ => ⟨t, rfl, .inr hcomment⟩) ?_
                rw [Outline.run, Outline.run, hread, hended, hnodes]
            | unseen hnone =>
                refine .unseen ?_
                rwa [Outline.run, hread]
        | false =>
            refine .unseen ?_
            rw [Outline.run, Outline.reading_comment hlex]
            exact late_unseen (late_holds (late_reading hg hc n hstop x) hstop) hstops
      · by_cases hleave : t.lexeme = .leave
        · exact readOn_leave hg hc hleave hstop hstops
        · exact readOn_code hg hc hcomment hleave hl hstop hstops

/-- A clause that is found ends with its header, and where a separator ends the header, a comment or the end of the code follows. -/
theorem HeaderEnd.ends {ms cs : List Token} {o : Outline} (hend : HeaderEnd g r a h false n ms o) (hcs : Ordered cs)
    (hbehind : ∀ t ∈ cs, h ≤ t.start) (ha : a < h) (hat : ∃ x ∈ shown (o.run cs).nodes, ClauseAt a h false x) :
    ∃ m y, (∀ t ∈ ms.getLast?, t.lexeme = .separator → ∃ u ∈ cs.head?, u.lexeme = .leave ∨ u.lexeme.isComment) ∧
      (o.run cs).nodes = ((⟨g.endClause m h, r, h, y⟩ : Outline).run cs).nodes := by
  obtain ⟨x, hx, hat⟩ := hat
  cases hend with
  | reading m y heq _ _ _ hsep =>
      rw [heq] at hx ⊢
      cases reading_run (n := m) (x := y) hg hc hcs (Nat.le_refl h) hbehind with
      | ends _ hjoined hnodes => exact ⟨m, y, fun t ht hl => hjoined ((hsep t ht).1 hl), hnodes⟩
      | unseen hnone => exact absurd hat (hnone x hx)
  | ended m heq _ _ hsemi =>
      rw [heq]
      refine ⟨m, h, fun t ht hl => ?_, rfl⟩
      obtain ⟨u, hu, hsemi⟩ := hsemi
      rw [Option.mem_unique ht hu, hsemi] at hl
      cases hl
  | gone hgone => exact absurd hat (gone_unseen hgone (fun t ht => (ha.trans_le (hbehind t ht)).ne') x hx)

end

end

/-! ### A clause with a body -/

/-- Of the clause that begins at `a` with a keyword that ends at `k` nothing is known but that it may have no name. -/
def bare (a h k : Nat) : Trait where
  place _ := True
  keyword e := e.start = a → e.stop = k
  spaceName e := e.stop ≠ h
  typeName _ := True
  clause n stop := n.IsAt a h true stop → n.name = none ∧ k = h

theorem bare_lawful (a h k : Nat) : (bare a h k).Lawful where
  ends _ _ hat := Bool.noConfusion hat.braced
  opens := by
    intro n hn hat
    have hstop := hat.headerStop
    cases hname : n.name with
    | none =>
        rw [Naming.headerStop, hname] at hstop
        exact ⟨rfl, (hn.keyword hat.start).symm.trans hstop⟩
    | some e =>
        rw [Naming.headerStop, hname] at hstop
        exact absurd hstop (hn.name e hname)

/-- If no name has ended with the header the clause has none. -/
theorem bare_run {g : Frame} {r : List Frame} {a h : Nat} (hg : (ahead a).likeness.Stacked [] g r g r) (hc : g.content = .statements)
    {n : Naming} (hn : ∀ e ∈ n.name, e.stop ≠ h) (x : Nat) {ts : List Token} (hts : ∀ t ∈ ts, t.stop ≠ h ∧ t.start ≠ a) :
    ∀ y ∈ shown ((Outline.reading g r n h x).run ts).nodes, ClauseAt a h true y → y.child? "name" = none ∧ n.keyword.stop = h := by
  have hlive : (bare a h n.keyword.stop).Live n := ⟨fun _ => rfl, hn⟩
  have hweak : Likeness.Weakens (ahead a).likeness (bare a h n.keyword.stop).likeness :=
    ⟨fun he => ⟨he.1, trivial⟩, fun hcl => ⟨hcl.1, hcl.2.1, fun hat => absurd hat.start hcl.2.2.1.ne⟩⟩
  have hstart : (bare a h n.keyword.stop).Holds (Outline.reading g r n h x) :=
    ⟨⟨hg.mono hweak (.naming hc hlive.likeness), rfl, trivial⟩, rfl, trivial⟩
  have htoken : ∀ t ∈ ts, (bare a h n.keyword.stop).Token t := fun t ht => ⟨trivial, (hts t ht).1, fun _ => (hts t ht).1⟩
  have hrun := hstart.run (bare_lawful a h n.keyword.stop) htoken (fun t ht hstart => absurd hstart (hts t ht).2)
    fun _ _ => trivial
  intro y hy hat
  have hall := Trait.forall₂_shown (bare_lawful a h n.keyword.stop) hrun.toAlike
  obtain ⟨i, hi, rfl⟩ := List.getElem_of_mem hy
  obtain ⟨m, stop, m', stop', ⟨-, -, hclause⟩, hnode, -⟩ := (hall.get hi hi).exists_clause hat.kind
  obtain ⟨hname, hk⟩ := hclause (hnode.isAt_iff.mp hat)
  refine ⟨?_, hk⟩
  have hchild := hnode.name
  rw [hname] at hchild
  exact hchild

/-! ### The pass from the keyword on -/

section

variable {as ms cs : List Token} {key : Token}

/-- The pass where a clause begins, also with another keyword and a name after it. -/
theorem exists_reading {rest : List Token} (ho : Ordered (as ++ key :: rest))
    (hb : (Outline.start.through as (key :: rest)).Begins key (Outline.nextLexeme rest)) :
    ∃ g r, (ahead key.start).likeness.Stacked [] g r g r ∧ g.content = .statements ∧
      Outline.start.run (as ++ key :: rest) = (Outline.reading g r ⟨key.extent, none, false⟩ key.stop key.stop).run rest ∧
      ∀ (key' : Token) (rest' : List Token), key'.lexeme = .word "namespace" →
        (∃ w, Outline.nextLexeme rest' = some (.word w)) → Outline.start.run (as ++ key' :: rest') =
          (Outline.reading g r ⟨key'.extent, none, false⟩ key'.stop key'.stop).run rest' := by
  have hahead := ahead_holds ho (key :: rest)
  obtain ⟨hc, hstack, -⟩ := hahead.cleared (ahead_lawful _) hb
  refine ⟨_, _, hstack, hc, ?_, fun key' rest' hl ⟨w, hw⟩ => ?_⟩
  · have hcode : ¬ key.lexeme.isComment := by simp [hb.1, Lexeme.isComment]
    rw [Outline.run_append, Outline.run, Outline.step_of_code hcode, hb.coded_eq]
    rfl
  · have hcode : ¬ key'.lexeme.isComment := by simp [hl, Lexeme.isComment]
    have hnext {k : Token} (hk : k.lexeme = .word "namespace") (us : List Token) :
        Outline.nextLexeme (k :: us) = some (.word "namespace") := by
      simp [Outline.nextLexeme, hk, Lexeme.isComment]
    have hthrough : Outline.start.through as (key' :: rest') = Outline.start.through as (key :: rest) :=
      Outline.through_congr (.inr ⟨_, _, hnext hb.1 rest, hnext hl rest'⟩) _ _
    rw [Outline.run_append, hthrough, Outline.run, Outline.step_of_code hcode, (hb.of_word hl hw).coded_eq]
    rfl

/-- The tokens behind a header. -/
theorem Ordered.behind (ho : Ordered (as ++ key :: (ms ++ cs))) :
    Ordered ms ∧ Ordered cs ∧ key.start < key.stop ∧ (∀ t ∈ ms, key.stop ≤ t.start) ∧
      (∀ t ∈ cs, lastStop key.stop ms ≤ t.start) ∧ key.stop ≤ lastStop key.stop ms := by
  have hkey := ho.right
  have hms : Ordered (ms ++ cs) := hkey.tail
  have hfirst : ∀ t ∈ ms ++ cs, key.stop ≤ t.start := fun t ht => hkey.stop_le ht
  have hsplit : lastStop key.stop ms = key.stop ∨ ∃ ns t, ms = ns ++ [t] ∧ lastStop key.stop ms = t.stop := by
    rcases List.eq_nil_or_concat ms with rfl | ⟨ns, t, rfl⟩
    · exact .inl rfl
    · exact .inr ⟨ns, t, List.concat_eq_append, by simp [lastStop]⟩
  refine ⟨hms.left, hms.right, ho.solid_of_split, fun t ht => hfirst t (List.mem_append_left _ ht), fun t ht => ?_, ?_⟩
  · rcases hsplit with heq | ⟨ns, u, rfl, heq⟩
    · rw [heq]
      exact hfirst t (List.mem_append_right _ ht)
    · rw [heq]
      rw [List.append_assoc] at hms
      exact hms.after ht
  · rcases hsplit with heq | ⟨ns, u, rfl, heq⟩
    · exact heq.ge
    · rw [heq]
      have hu := hfirst u (by simp)
      have hsolid := hms.solid u (by simp)
      omega

end

/-! ### Where a header ends -/

/-- The header of the clause that begins with the token `key` ends where one of some tokens ends. -/
def stopping (key : Token) (ts : List Token) : Trait where
  place p := ∃ t ∈ ts, t.stop = p
  keyword e := e.start = key.start → ∃ t ∈ ts, t.stop = e.stop
  spaceName e := ∃ t ∈ ts, t.stop = e.stop
  typeName _ := True
  clause n stop := n.keyword.start = key.start → ∃ t ∈ ts, t.stop = n.headerStop stop

theorem stopping_lawful (key : Token) (ts : List Token) : (stopping key ts).Lawful where
  ends _ hp _ := hp
  opens := by
    intro n hn hstart
    cases hname : n.name with
    | none =>
        rw [Naming.headerStop, hname]
        exact hn.keyword hstart
    | some e =>
        rw [Naming.headerStop, hname]
        exact hn.name e hname

/-- The header of a clause ends with a token. -/
theorem exists_header {as bs : List Token} {key : Token} (ho : Ordered (as ++ key :: bs))
    (hb : (Outline.start.through as (key :: bs)).Begins key (Outline.nextLexeme bs)) {h : Nat} {braced : Bool} {x : Syntax.Node}
    (hx : x ∈ shown (Outline.start.run (as ++ key :: bs)).nodes) (hat : ClauseAt key.start h braced x) :
    ∃ ms cs, bs = ms ++ cs ∧ h = lastStop key.stop ms := by
  obtain ⟨g, r, hg, hc, hold, -⟩ := exists_reading ho hb
  have hweak : Likeness.Weakens (ahead key.start).likeness (stopping key (key :: bs)).likeness :=
    ⟨fun he => ⟨he.1, trivial⟩, fun hcl => ⟨hcl.1, hcl.2.1, fun hstart => absurd hstart hcl.2.2.1.ne⟩⟩
  have hkey : ∃ t ∈ key :: bs, t.stop = key.stop := ⟨key, List.mem_cons_self, rfl⟩
  have hlive : (stopping key (key :: bs)).Live ⟨key.extent, none, false⟩ := ⟨fun _ => hkey, by simp⟩
  have hstart : (stopping key (key :: bs)).Holds (Outline.reading g r ⟨key.extent, none, false⟩ key.stop key.stop) :=
    ⟨⟨hg.mono hweak (.naming hc hlive.likeness), rfl, hkey⟩, rfl, hkey⟩
  have hmem {t : Token} (ht : t ∈ bs) : ∃ u ∈ key :: bs, u.stop = t.stop := ⟨t, List.mem_cons_of_mem key ht, rfl⟩
  have htoken : ∀ t ∈ bs, (stopping key (key :: bs)).Token t := fun t ht => ⟨hmem ht, hmem ht, fun _ => hmem ht⟩
  have hrun := hstart.run (stopping_lawful key (key :: bs)) htoken (fun t ht _ => hmem ht) fun _ _ => trivial
  rw [← hold] at hrun
  have hall := Trait.forall₂_shown (stopping_lawful key (key :: bs)) hrun.toAlike
  obtain ⟨i, hi, rfl⟩ := List.getElem_of_mem hx
  obtain ⟨n, stop, n', stop', ⟨-, -, hclause⟩, hnode, -⟩ := (hall.get hi hi).exists_clause hat.kind
  obtain ⟨t, ht, hstop⟩ := hclause (hnode.isAt_iff.mp hat).start
  rw [(hnode.isAt_iff.mp hat).headerStop] at hstop
  rcases List.mem_cons.mp ht with rfl | ht
  · exact ⟨[], bs, rfl, hstop.symm⟩
  · obtain ⟨ns, cs, rfl⟩ := List.append_of_mem ht
    exact ⟨ns ++ [t], cs, by simp, by simp [lastStop, hstop]⟩

end Namesake.Php
