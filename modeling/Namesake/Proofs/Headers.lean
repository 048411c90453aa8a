import Namesake.Proofs.Findings
import Namesake.Proofs.Renaming

/-! The header of a clause. From its keyword on a pass reads the name of the clause; what it makes of the tokens of the
header, one by one and together, is said here. -/

namespace Namesake.Php

open Syntax

/-! ### Clauses that are read -/

/-- An outline that is reading the name of a clause. -/
def Outline.reading (g : Frame) (r : List Frame) (n : Naming) (last anchor : Nat) : Outline :=
  ⟨g.enter (.naming n), r, last, anchor⟩

namespace Outline

variable {g : Frame} {r : List Frame} {n : Naming} {l a : Nat} {t : Token} {rest : List Token}

theorem reading_comment {broken : Bool} (ht : t.lexeme = .comment broken) :
    (reading g r n l a).step t rest = reading g r n t.stop (if broken then a else t.stop) := by
  simp only [step, ht]
  rfl

theorem reading_step (ht : ¬ t.lexeme.isComment) :
    (reading g r n l a).step t rest =
      { (reading g r n l a).inClause n t (nextLexeme rest) with last := t.stop, anchor := t.stop } :=
  step_of_code ht _ _

theorem reading_name (hw : t.lexeme.isWord) (hn : n.name = none) :
    (reading g r n l a).step t rest = reading g r { n with name := some t.extent } t.stop t.stop := by
  obtain ⟨w, ht⟩ := Lexeme.exists_of_isWord hw
  rw [reading_step (by simp [ht, Lexeme.isComment])]
  simp only [inClause, ht, hn]
  rfl

theorem reading_join {e : Extent} (hw : t.lexeme.isWord) (hn : n.name = some e) (hj : n.joined = true) :
    (reading g r n l a).step t rest =
      reading g r { n with name := some ⟨e.start, t.stop⟩, joined := false } t.stop t.stop := by
  obtain ⟨w, ht⟩ := Lexeme.exists_of_isWord hw
  rw [reading_step (by simp [ht, Lexeme.isComment])]
  simp only [inClause, ht, hn, hj, if_true]
  rfl

theorem reading_separator {e : Extent} (ht : t.lexeme = .separator) (hn : n.name = some e) :
    (reading g r n l a).step t rest = reading g r { n with joined := true } t.stop t.stop := by
  rw [reading_step (by simp [ht, Lexeme.isComment])]
  simp only [inClause, ht, hn]
  rfl

theorem reading_semicolon {e : Extent} (ht : t.lexeme = .semicolon) (hn : n.name = some e) :
    (reading g r n l a).step t rest = ⟨g.endClause n t.stop, r, t.stop, t.stop⟩ := by
  rw [reading_step (by simp [ht, Lexeme.isComment])]
  simp only [inClause, ht, hn]
  rfl

theorem reading_leave {e : Extent} (ht : t.lexeme = .leave) (hn : n.name = some e) :
    (reading g r n l a).step t rest = ⟨g.endClause n a, r, t.stop, t.stop⟩ := by
  rw [reading_step (by simp [ht, Lexeme.isComment])]
  simp only [inClause, ht, hn]
  rfl

theorem reading_leave_none (ht : t.lexeme = .leave) (hn : n.name = none) :
    (reading g r n l a).step t rest = ⟨g.enter (.ready none false), r, t.stop, t.stop⟩ := by
  rw [reading_step (by simp [ht, Lexeme.isComment])]
  simp only [inClause, ht, hn]
  rfl

theorem reading_separator_none (ht : t.lexeme = .separator) (hn : n.name = none) :
    (reading g r n l a).step t rest = ⟨g.enter (.busy false), r, t.stop, t.stop⟩ := by
  rw [reading_step (by simp [ht, Lexeme.isComment])]
  simp only [inClause, ht, hn]
  rfl

theorem reading_semicolon_none (ht : t.lexeme = .semicolon) (hn : n.name = none) :
    (reading g r n l a).step t rest = ⟨g.enter (.ready none false), r, t.stop, t.stop⟩ := by
  rw [reading_step (by simp [ht, Lexeme.isComment])]
  simp only [inClause, ht, hn]
  rfl

end Outline

/-- Words with separators between them, and the piece of the text that they cover. -/
inductive Spelt : List Token → Extent → Prop
  | word {t : Token} (ht : t.lexeme.isWord) : Spelt [t] t.extent
  | join {ts : List Token} {e : Extent} {s t : Token} (h : Spelt ts e) (hs : s.lexeme = .separator) (ht : t.lexeme.isWord) :
      Spelt (ts ++ [s, t]) ⟨e.start, t.stop⟩

/-- A name that is written out is read as one. -/
theorem Spelt.through {ts : List Token} {e : Extent} (h : Spelt ts e) (g : Frame) (r : List Frame) (k : Extent) (l a : Nat)
    (rest : List Token) :
    (Outline.reading g r ⟨k, none, false⟩ l a).through ts rest = Outline.reading g r ⟨k, some e, false⟩ e.stop e.stop := by
  induction h generalizing rest with
  | word ht =>
      rw [Outline.through, Outline.reading_name ht rfl]
      rfl
  | join _ hs ht ih =>
      rw [Outline.through_append, ih, Outline.through, Outline.reading_separator hs rfl, Outline.through,
        Outline.reading_join ht rfl rfl]
      rfl

/-- It begins with a word. -/
theorem Spelt.nextLexeme {ts : List Token} {e : Extent} (h : Spelt ts e) (rest : List Token) :
    ∃ w, Outline.nextLexeme (ts ++ rest) = some (.word w) := by
  induction h generalizing rest with
  | @word t ht =>
      obtain ⟨w, hl⟩ := Lexeme.exists_of_isWord ht
      exact ⟨w, by simp [Outline.nextLexeme, hl, Lexeme.isComment]⟩
  | join _ _ _ ih =>
      rw [List.append_assoc]
      exact ih _

/-! ### Where a clause begins -/

/-- The frame in which a clause begins: one that it stands in itself ends before it. -/
def Outline.cleared (o : Outline) : Frame :=
  match o.top.phase with
  | .naming n => o.top.endClause n o.last
  | _ => o.top

namespace Outline

variable {o : Outline} {t t' : Token} {next next' : Option Lexeme}

theorem begun_namespace (o : Outline) (t : Token) {next : Option Lexeme} (hnext : next ≠ some .separator) (s : Option Nat) (m : Bool) :
    o.begun "namespace" t next s m = o.enter (.naming ⟨t.extent, none, false⟩) := by
  have hkind : kindOf? "namespace" = none := by decide
  simp [begun, hkind, hnext]
  rfl

/-- What a pass does where a clause begins. -/
theorem Begins.coded_eq (h : o.Begins t next) :
    o.coded t next = reading o.cleared o.outer ⟨t.extent, none, false⟩ o.last o.anchor := by
  obtain ⟨hl, hnext, hphase⟩ := h
  obtain ⟨⟨b, s, w, c, ph, fs⟩, r, l, a⟩ := o
  dsimp only at hphase
  cases ph with
  | ready st m =>
      obtain rfl : c = .statements := hphase
      simp only [coded, between, hl, begun_namespace _ _ hnext]
      rfl
  | busy whole =>
      cases whole with
      | false => exact hphase.elim
      | true =>
          obtain ⟨rfl, hword⟩ : c = .statements ∧ next.any Lexeme.isWord = true := hphase
          obtain ⟨l, rfl, hl'⟩ := Option.any_eq_true .. |>.mp hword
          obtain ⟨w, rfl⟩ := Lexeme.exists_of_isWord hl'
          have hdecl : declares "namespace" = true := by decide
          simp only [coded, hl, hdecl, if_true, begun_namespace _ _ hnext]
          rfl
  | creating => exact hphase.elim
  | heading hd => exact hphase.elim
  | naming n =>
      have hover : isOverlooked n t next = false := hphase
      obtain ⟨kw, name, j⟩ := n
      have hparts := hover
      simp only [isOverlooked, Bool.or_eq_false_iff] at hparts
      obtain ⟨⟨⟨⟨rfl, hname⟩, -⟩, -⟩, -⟩ := hparts
      cases name with
      | none => cases hname
      | some e =>
          simp only [coded, inClause, hl, Bool.false_eq_true, if_false, strayed, hover, between, begun_namespace _ _ hnext]
          rfl

/-- A clause begins also with another keyword and a name after it. -/
theorem Begins.of_word (h : o.Begins t next) (hl : t'.lexeme = .word "namespace") {w : String} (hnext : next' = some (.word w)) :
    o.Begins t' next' := by
  subst hnext
  obtain ⟨hlex, -, hphase⟩ := h
  refine ⟨hl, by simp, ?_⟩
  revert hphase
  generalize o.top.phase = ph
  intro hphase
  cases ph with
  | ready _ _ => exact hphase
  | busy whole =>
      cases whole with
      | false => exact hphase
      | true => exact ⟨hphase.1, rfl⟩
  | creating => exact hphase
  | heading _ => exact hphase
  | naming n =>
      have hover : isOverlooked n t next = false := hphase
      have hplain : isPlainWord (.word "namespace") = false := by decide
      simp only [isOverlooked, Bool.or_eq_false_iff] at hover
      obtain ⟨⟨⟨⟨hj, hname⟩, -⟩, -⟩, -⟩ := hover
      simp [isOverlooked, hj, hname, hl, hplain, Lexeme.begins, Lexeme.endsHeader]

end Outline

/-- What holds of an outline holds also of the frame in which a clause begins. -/
theorem Trait.Holds.cleared {P : Trait} (hP : P.Lawful) {o : Outline} (h : P.Holds o) {t : Php.Token} {next : Option Lexeme}
    (hb : o.Begins t next) :
    o.cleared.content = .statements ∧ P.likeness.Stacked [] o.cleared o.outer o.cleared o.outer ∧
      ∀ n, o.cleared.phase ≠ .naming n := by
  have hcontent := hb.2.2
  unfold Outline.cleared
  cases hp : o.top.phase with
  | ready s m =>
      rw [hp] at hcontent
      exact ⟨hcontent, h.stack, by simp [hp]⟩
  | busy w =>
      rw [hp] at hcontent
      cases w with
      | false => exact hcontent.elim
      | true => exact ⟨hcontent.1, h.stack, by simp [hp]⟩
  | creating => rw [hp] at hcontent; exact hcontent.elim
  | heading hd => rw [hp] at hcontent; exact hcontent.elim
  | naming n =>
      have hphase := h.toAlike.phase
      rw [hp] at hphase
      cases hphase with
      | naming hc hn =>
          refine ⟨hc, h.stack.mapTop fun _ hf => hf.endClause (hP.likeness.ends hn h.last), ?_⟩
          intro n'
          exact Phase.noConfusion

/-! ### The header as it was -/

/-- It is the clause that begins at `a`, its header ends at `h`, and it has a body if it is `braced`. -/
structure Naming.IsAt (a h : Nat) (braced : Bool) (n : Naming) (stop : Option Nat) : Prop where
  start : n.keyword.start = a
  headerStop : n.headerStop stop = h
  braced : stop.isNone = braced

/-- A node is the clause that begins at `a`, its header ends at `h`, and it has a body if it is `braced`. -/
structure ClauseAt (a h : Nat) (braced : Bool) (x : Syntax.Node) : Prop where
  kind : x.kind = Tree.clauseKind
  start : x.start = a
  headerStop : Tree.headerStop x = h
  body : (x.child? "body").isSome = braced

theorem ClauseNode.isAt_iff {x : Syntax.Node} {n : Naming} {stop : Option Nat} (hx : ClauseNode x n stop) {a h : Nat} {braced : Bool} :
    ClauseAt a h braced x ↔ n.IsAt a h braced stop := by
  constructor
  · intro hat
    exact ⟨hx.start ▸ hat.start, hx.headerStop ▸ hat.headerStop, hx.body ▸ hat.body⟩
  · intro hat
    exact ⟨hx.kind, hx.start.trans hat.start, hx.headerStop.trans hat.headerStop, hx.body.trans hat.braced⟩

/-- The clause is not found, and never will be. -/
def lacks (a h : Nat) (braced : Bool) (place : Nat → Prop) (keyword spaceName : Extent → Prop) : Trait where
  place := place
  keyword := keyword
  spaceName := spaceName
  typeName _ := True
  clause n stop := ¬ n.IsAt a h braced stop

theorem lacks_unseen {a h : Nat} {braced : Bool} {place : Nat → Prop} {keyword spaceName : Extent → Prop}
    (hP : (lacks a h braced place keyword spaceName).Lawful) {o : Outline}
    (ho : (lacks a h braced place keyword spaceName).likeness.Alike [] o o) : ∀ x ∈ shown o.nodes, ¬ ClauseAt a h braced x := by
  intro x hx hat
  have hall := Trait.forall₂_shown hP ho
  obtain ⟨i, hi, rfl⟩ := List.getElem_of_mem hx
  obtain ⟨n, stop, n', stop', ⟨-, -, hnot⟩, hnode, -⟩ := (hall.get hi hi).exists_clause hat.kind
  exact hnot (hnode.isAt_iff.mp hat)

/-- The clause has been given up or has ended elsewhere. -/
def gone (a h : Nat) (braced : Bool) : Trait :=
  lacks a h braced (fun _ => True) (fun e => e.start ≠ a) fun _ => True

theorem gone_lawful (a h : Nat) (braced : Bool) : (gone a h braced).Lawful where
  ends hn _ hat := hn.keyword hat.start
  opens hn hat := hn.keyword hat.start

theorem weakens_lacks {a h : Nat} {braced : Bool} {place : Nat → Prop} {keyword spaceName : Extent → Prop} :
    Likeness.Weakens (ahead a).likeness (lacks a h braced place keyword spaceName).likeness where
  typeName he := ⟨he.1, trivial⟩
  clause hc := ⟨hc.1, hc.2.1, fun hat => absurd hat.start hc.2.2.1.ne⟩

section

variable {g : Frame} {r : List Frame} {a h : Nat} {braced : Bool} {place : Nat → Prop} {keyword spaceName : Extent → Prop}
  (hg : (ahead a).likeness.Stacked [] g r g r)

include hg

/-- Whatever the statement comes to, nothing has been found. -/
theorem lacks_enter {p : Phase} (hp : (lacks a h braced place keyword spaceName).likeness.Phased g.content p p) :
    (lacks a h braced place keyword spaceName).likeness.Stacked [] (g.enter p) r (g.enter p) r :=
  hg.mono weakens_lacks hp

theorem lacks_endClause {n : Naming} {p : Nat} (hp : ¬ n.IsAt a h braced (some p)) :
    (lacks a h braced place keyword spaceName).likeness.Stacked [] (g.endClause n p) r (g.endClause n p) r := by
  have hready : (lacks a h braced place keyword spaceName).likeness.Stacked [] (g.enter (.ready none false)) r
      (g.enter (.ready none false)) r := lacks_enter hg (Likeness.phased_ready _)
  have hend : (lacks a h braced place keyword spaceName).likeness.clause n (some p) n (some p) := ⟨rfl, rfl, hp⟩
  exact hready.mapTop fun _ hf => hf.endClause hend

omit hg in
theorem gone_holds {f : Frame} {r : List Frame} {l x : Nat} (h' : (gone a h braced).likeness.Stacked [] f r f r) :
    (gone a h braced).Holds ⟨f, r, l, x⟩ :=
  ⟨⟨h', rfl, trivial⟩, rfl, trivial⟩

omit hg in
/-- A clause that is gone does not come back. -/
theorem gone_through {o : Outline} (ho : (gone a h braced).Holds o) {ts : List Token} (hts : ∀ t ∈ ts, t.start ≠ a)
    (rest : List Token) : (gone a h braced).Holds (o.through ts rest) := by
  have hmem {as bs : List Token} {t : Token} (hsplit : ts = as ++ t :: bs) : t ∈ ts := by
    rw [hsplit]
    exact List.mem_append_right _ List.mem_cons_self
  exact ho.through (gone_lawful a h braced) (fun _ _ => ⟨trivial, trivial, fun _ => trivial⟩)
    (fun _ t _ hsplit _ => hts t (hmem hsplit)) fun _ _ _ _ _ => trivial

omit hg in
theorem gone_unseen {o : Outline} (ho : (gone a h braced).Holds o) {ts : List Token} (hts : ∀ t ∈ ts, t.start ≠ a) :
    ∀ y ∈ shown (o.run ts).nodes, ¬ ClauseAt a h braced y := by
  have hgone := gone_through ho hts []
  rw [← Outline.run_eq_through] at hgone
  exact lacks_unseen (gone_lawful a h braced) hgone.toAlike

end

/-- What a header is made of. -/
def Lexeme.inHeader : Lexeme → Bool
  | .word _ | .separator | .semicolon | .comment _ => true
  | _ => false

/-- The name that is being read, where the last token ends at `l` and the code may end the clause at `a`. -/
structure Naming.Behind (n : Naming) (l anchor : Nat) : Prop where
  le : ∀ e ∈ n.name, e.stop ≤ l
  joined : n.name = none → n.joined = false
  /-- If it ends there, nothing has followed. -/
  last : ∀ e ∈ n.name, e.stop = l → n.joined = false ∧ anchor = l

/-- The offset at which tokens end that begin at `l`. -/
def lastStop (l : Nat) (ts : List Token) : Nat :=
  (ts.getLast?.map Token.stop).getD l

theorem lastStop_cons (l : Nat) (t : Token) (ts : List Token) : lastStop l (t :: ts) = lastStop t.stop ts := by
  cases ts with
  | nil => rfl
  | cons u us =>
      rw [lastStop, lastStop, List.getLast?_cons_cons, List.getLast?_cons]
      rfl

theorem Ordered.le_lastStop {ts : List Token} (h : Ordered ts) (l : Nat) : ∀ t ∈ ts, t.stop ≤ lastStop l ts := by
  induction ts generalizing l with
  | nil => intro t ht; cases ht
  | cons u us ih =>
      intro t ht
      rw [lastStop_cons]
      have hus : Ordered us := h.tail
      rcases List.mem_cons.mp ht with rfl | ht
      · cases us with
        | nil => exact Nat.le_refl _
        | cons v vs =>
            have hv := ih hus t.stop v List.mem_cons_self
            have hsolid := h.solid v (by simp)
            have hafter := h.stop_le (u := v) List.mem_cons_self
            omega
      · exact ih hus _ t ht

theorem Ordered.eq_nil_of_lastStop {ts : List Token} (hts : Ordered ts) {l : Nat} (hl : ∀ t ∈ ts, l ≤ t.start)
    (h : lastStop l ts = l) : ts = [] := by
  cases ts with
  | nil => rfl
  | cons t ts =>
      have hstart := hl t List.mem_cons_self
      have hsolid := hts.solid t List.mem_cons_self
      have hle := hts.le_lastStop l t List.mem_cons_self
      omega

/-- A name that ends before a place ends before a later one, and nothing hangs on what has followed it. -/
theorem Naming.Behind.later {n m : Naming} {l p x : Nat} (hn : n.Behind l x) (hlt : l < p) (hname : m.name = n.name)
    (hj : m.name = none → m.joined = false) (y : Nat) : m.Behind p y ∧ ∀ e ∈ m.name, e.stop ≠ p := by
  have hbefore : ∀ e ∈ m.name, e.stop < p := fun e he => by
    have := hn.le e (hname ▸ he)
    omega
  exact ⟨⟨fun e he => (hbefore e he).le, hj, fun e he hstop => absurd hstop (hbefore e he).ne⟩, fun e he => (hbefore e he).ne⟩

/-- A name that has been read just now is the last that was read. -/
theorem Naming.behind_some (k e : Extent) : (⟨k, some e, false⟩ : Naming).Behind e.stop e.stop where
  le := by
    rintro _ ⟨⟩
    exact Nat.le_refl _
  joined hnone := absurd hnone (Option.some_ne_none _)
  last _ _ _ := ⟨rfl, rfl⟩

section

variable {g : Frame} {r : List Frame} {a : Nat}

/-- What a pass has made of a header `ts` that ends at `h`, where it had read the clause up to `n`. -/
inductive HeaderEnd (g : Frame) (r : List Frame) (a h : Nat) (braced : Bool) (n : Naming) (ts : List Token) (o : Outline) : Prop
  | reading (m : Naming) (x : Nat) (ho : o = Outline.reading g r m h x) (hk : m.keyword = n.keyword) (hm : m.Behind h x)
      (hnil : ts = [] → m = n) (hlast : ∀ t ∈ ts.getLast?, (t.lexeme = .separator → m.joined = true) ∧
        (t.lexeme.isWord ∨ ∀ e ∈ m.name, e.stop ≠ h))
  | ended (m : Naming) (ho : o = ⟨g.endClause m h, r, h, h⟩) (hk : m.keyword = n.keyword) (hb : braced = false)
      (hlast : ∃ t ∈ ts.getLast?, t.lexeme = .semicolon)
  /-- The clause is none, or has ended elsewhere. -/
  | gone (ho : (gone a h braced).Holds o)

/-- What a pass makes of one token of a header, where it had read the clause up to `n`. -/
inductive HeaderStep (g : Frame) (r : List Frame) (a h : Nat) (braced : Bool) (n : Naming) (t : Token) (o : Outline) : Prop
  | reading (m : Naming) (x : Nat) (ho : o = Outline.reading g r m t.stop x) (hk : m.keyword = n.keyword) (hm : m.Behind t.stop x)
      (hsep : t.lexeme = .separator → m.joined = true) (hword : t.lexeme.isWord ∨ ∀ e ∈ m.name, e.stop ≠ t.stop)
  | ended (ho : o = ⟨g.endClause n t.stop, r, t.stop, t.stop⟩) (hat : n.IsAt a h braced (some t.stop))
      (hlex : t.lexeme = .semicolon)
  /-- The clause is none, or ends elsewhere. -/
  | gone (ho : (gone a h braced).Holds o)

section

variable {h l x : Nat} {braced : Bool} {n : Naming} {t : Token} {rest : List Token}
  (hg : (ahead a).likeness.Stacked [] g r g r) (hc : g.content = .statements)

include hg hc

/-- A clause that ends before the end of its header ends elsewhere, whatever begins behind it. -/
theorem gone_between (ha : a < t.start) (hl : l ≠ h) (next : Option Lexeme) :
    (gone a h braced).Holds { (⟨g.endClause n l, r, l, x⟩ : Outline).between t next none false with
      last := t.stop, anchor := t.stop } := by
  have hnot : ¬ n.IsAt a h braced (some l) := fun hat => hl hat.headerStop
  have hends : (gone a h braced).Holds ⟨g.endClause n l, r, l, x⟩ := gone_holds (lacks_endClause hg hnot)
  have hkey : t.lexeme = .word "namespace" → next ≠ some .separator →
      (gone a h braced).likeness.keyword t.extent t.extent := fun _ _ => ⟨rfl, ha.ne'⟩
  have htoken : (gone a h braced).Token t := ⟨trivial, trivial, fun _ => trivial⟩
  exact gone_holds (hends.toAlike.between (gone_lawful a h braced).likeness hc htoken.likeness _ none none false hkey).stack

/-- A word of a header is the name or a part of it, is passed over, or begins a statement. -/
theorem header_step_word (hn : n.Behind l x) (hw : t.lexeme.isWord) (ha : a < t.start) (hl : l < t.stop) (hh : t.stop ≤ h) :
    HeaderStep g r a h braced n t ((Outline.reading g r n l x).step t rest) := by
  have hsep {m : Naming} (hlex : t.lexeme = .separator) : m.joined = true := by
    rw [hlex] at hw
    cases hw
  cases hname : n.name with
  | none =>
      have hstep : (Outline.reading g r n l x).step t rest = Outline.reading g r { n with name := some t.extent } t.stop t.stop :=
        Outline.reading_name hw hname
      rw [hn.joined hname] at hstep
      exact .reading _ _ hstep rfl (Naming.behind_some _ _) hsep (.inl hw)
  | some e =>
      cases hj : n.joined with
      | true => exact .reading _ _ (Outline.reading_join hw hname hj) rfl (Naming.behind_some _ _) hsep (.inl hw)
      | false =>
          obtain ⟨w, hlex⟩ := Lexeme.exists_of_isWord hw
          have hcode : ¬ t.lexeme.isComment := by rw [hlex]; simp [Lexeme.isComment]
          have hclause : (Outline.reading g r n l x).inClause n t (Outline.nextLexeme rest) =
              (Outline.reading g r n l x).strayed n t (Outline.nextLexeme rest) := by
            simp only [Outline.inClause, hlex, hname, hj]
            rfl
          rw [Outline.reading_step hcode, hclause, Outline.strayed]
          split
          · exact .reading n t.stop rfl rfl (hn.later hl rfl hn.joined _).1 hsep (.inl hw)
          · exact .gone (gone_between hg hc ha (show l ≠ h by omega) _)

/-- What one token of a header does. -/
theorem header_step (hn : n.Behind l x) (hplain : t.lexeme.inHeader) (ha : a < t.start) (hl : l < t.stop) (hh : t.stop ≤ h) :
    HeaderStep g r a h braced n t ((Outline.reading g r n l x).step t rest) := by
  have hlater := hn.later hl rfl hn.joined
  cases hlex : t.lexeme with
  | comment broken =>
      rw [Outline.reading_comment hlex]
      exact .reading n _ rfl rfl (hlater _).1 (by simp [hlex]) (.inr (hlater x).2)
  | word w => exact header_step_word hg hc hn (by rw [hlex]; rfl) ha hl hh
  | separator =>
      cases hname : n.name with
      | none =>
          rw [Outline.reading_separator_none hlex hname]
          exact .gone (gone_holds (lacks_enter hg (.busy false)))
      | some e =>
          have hjoined := hn.later (m := { n with joined := true }) hl rfl (by simp [hname]) t.stop
          exact .reading _ _ (Outline.reading_separator hlex hname) rfl hjoined.1 (fun _ => rfl) (.inr hjoined.2)
  | semicolon =>
      cases hname : n.name with
      | none =>
          rw [Outline.reading_semicolon_none hlex hname]
          exact .gone (gone_holds (lacks_enter hg (Likeness.phased_ready _)))
      | some e =>
          by_cases hat : n.IsAt a h braced (some t.stop)
          · exact .ended (Outline.reading_semicolon hlex hname) hat hlex
          · rw [Outline.reading_semicolon hlex hname]
            exact .gone (gone_holds (lacks_endClause hg hat))
  | _ => rw [hlex] at hplain; cases hplain

end

/-- The end of a header, told from the end of what follows its first token. -/
theorem HeaderEnd.cons {h : Nat} {braced : Bool} {n m : Naming} {t : Token} {ts : List Token} {o : Outline}
    (hend : HeaderEnd g r a h braced m ts o) (hh : h = lastStop t.stop ts) (hk : m.keyword = n.keyword)
    (hsep : t.lexeme = .separator → m.joined = true) (hword : t.lexeme.isWord ∨ ∀ e ∈ m.name, e.stop ≠ t.stop) :
    HeaderEnd g r a h braced n (t :: ts) o := by
  cases hend with
  | reading m' y ho hm hy hnil hlast =>
      refine .reading m' y ho (hm.trans hk) hy (fun hnone => absurd hnone (List.cons_ne_nil t ts)) fun u hu => ?_
      cases ts with
      | nil =>
          obtain rfl : t = u := Option.some.inj hu
          obtain rfl : h = t.stop := hh
          rw [hnil rfl]
          exact ⟨hsep, hword⟩
      | cons v vs => exact hlast u hu
  | ended m' ho hm hb hlast =>
      obtain ⟨u, hu, hlex⟩ := hlast
      refine .ended m' ho (hm.trans hk) hb ⟨u, ?_, hlex⟩
      cases ts with
      | nil => cases hu
      | cons v vs => exact hu
  | gone ho => exact .gone ho

/-- What a pass makes of a header, whatever follows it. -/
theorem header_run {h : Nat} {braced : Bool} (hg : (ahead a).likeness.Stacked [] g r g r) (hc : g.content = .statements)
    {ts : List Token} (hplain : ∀ t ∈ ts, t.lexeme.inHeader) (hts : Ordered ts) {n : Naming} {l x : Nat}
    (hl : ∀ t ∈ ts, l ≤ t.start) (ha : a < l) (hn : n.Behind l x) (hh : h = lastStop l ts) (rest : List Token) :
    HeaderEnd g r a h braced n ts ((Outline.reading g r n l x).through ts rest) := by
  induction ts generalizing n l x with
  | nil =>
      obtain rfl : h = l := hh
      exact .reading n x rfl rfl hn (fun _ => rfl) (by simp)
  | cons t ts ih =>
      have hsolid := hts.solid t List.mem_cons_self
      have hstart := hl t List.mem_cons_self
      have hafter : ∀ u ∈ ts, t.stop ≤ u.start := fun u hu => hts.stop_le hu
      have hlast : h = lastStop t.stop ts := by rw [hh, lastStop_cons]
      have hstep : HeaderStep g r a h braced n t ((Outline.reading g r n l x).step t (ts ++ rest)) :=
        header_step hg hc hn (hplain t List.mem_cons_self) (by omega) (by omega) (hh ▸ hts.le_lastStop l t List.mem_cons_self)
      rw [Outline.through]
      cases hstep with
      | reading m y ho hk hm hsep hword =>
          rw [ho]
          exact (ih (fun u hu => hplain u (List.mem_cons_of_mem t hu)) hts.tail hafter (by omega) hm hlast).cons hlast hk hsep hword
      | ended ho hat hlex =>
          obtain rfl : t.stop = h := hat.headerStop
          obtain rfl : ts = [] := hts.tail.eq_nil_of_lastStop hafter hlast.symm
          exact .ended n ho rfl hat.braced.symm ⟨t, rfl, hlex⟩
      | gone ho =>
          refine .gone (gone_through ho (fun u hu => ?_) rest)
          have := hafter u hu
          omega

end

end Namesake.Php
