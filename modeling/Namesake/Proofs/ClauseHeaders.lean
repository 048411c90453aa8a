import Namesake.Correction
import Namesake.Proofs.Respelling
import Namesake.Proofs.Rewording

/-! The header of the first clause of a text gives way to another namespace. The tokens in front of it and behind it are
the same, so the first clause of the new text has the new name, and the first type is declared as it was. -/

namespace Namesake.Php

open Lexer Syntax Text

/-! ### What is found in a text again -/

/-- The first declarations of two texts have the same name, in the first text outside of the piece from `start` to `stop`;
if it stands in front of the piece it stands where it stood. -/
def Redeclares (s s' : String) (start stop : Nat) : Prop :=
  Option.Rel (fun d d' : Declaration => ∃ n n', d.name = some n ∧ d'.name = some n' ∧ n'.text = n.text ∧
    (n.start < start ∧ n'.start = n.start ∨ (stop : Int) ≤ n.start)) (parse s).declaration? (parse s').declaration?

theorem redeclares {s s' : String} {front old new back : List Char} (hs : s.toList = front ++ (old ++ back))
    (hs' : s'.toList = front ++ (new ++ back)) {L : Likeness}
    (hL : ∀ e e', L.typeName e e' → e' = e ∧ (ahead (width front)).typeName e ∨
      e.Moves (width front + width old) (width front + width new) e')
    (extra : List Syntax.Node) {l : List Syntax.Node} (hsights : sights s' = extra ++ l) (hextra : ∀ x ∈ extra, x.kind = Tree.clauseKind)
    (h : List.Forall₂ L.Shown (sights s) l) : Redeclares s s' (width front) (width front + width old) := by
  have hrel := rel_declaration? extra hsights hextra h
  rw [Redeclares]
  generalize (parse s).declaration? = x at hrel ⊢
  generalize (parse s').declaration? = y at hrel ⊢
  cases hrel with
  | none => exact .none
  | some hd =>
      obtain ⟨e, e', hname, hd, hd'⟩ := hd
      refine .some ⟨_, _, hd, hd', ?_⟩
      rcases hL e e' hname with ⟨rfl, hlt, hle⟩ | he
      · exact ⟨textIn_front hs hs' hle, .inl ⟨Int.ofNat_lt.mpr hlt, rfl⟩⟩
      · obtain ⟨k, hk, -⟩ := he.start
        refine ⟨textIn_back hs hs' he, .inr (Int.ofNat_le.mpr ?_)⟩
        omega

/-- The first clause has the new name, if all is found again that is found in the text with the old header. -/
theorem exists_clause_of_reworded {s s' : String} {c : Clause} (hc : (parse s).clause? = some c) {a h h' : Nat}
    (hstart : c.start = a) (hstop : c.headerStop = h) {e : Extent}
    (hshown : List.Forall₂ (reworded a h h' c.braced e).Shown (sights s) (sights s')) :
    ∃ c', (parse s').clause? = some c' ∧ c'.name = some (e.textIn (Utf8.encode s')) := by
  have hrel := rel_clause? hshown
  rw [hc] at hrel
  cases hc' : (parse s').clause? with
  | none => rw [hc'] at hrel; cases hrel
  | some c' =>
      rw [hc'] at hrel
      cases hrel with
      | some hr =>
          obtain ⟨n, p, n', p', hclause, hx, hy⟩ := hr
          have hat : n.IsAt a h c.braced p :=
            ⟨Int.ofNat.inj (hx.start.symm.trans hstart), Int.ofNat.inj (hx.headerStop.symm.trans hstop), hx.braced.symm⟩
          exact ⟨c', rfl, by rw [hy.name, hclause hat]; rfl⟩

/-! ### The header in the text -/

/-- In the text `s` the header of the first clause `c` covers the keyword `kw` and `header`; `front` stands
before it and `rest` behind it. The header is plain, and its last token ends it. -/
structure HeaderIn (s : String) (c : Clause) (as ms cs : List Token) (mark used kw header rest : List Char) (depth : Nat) :
    Prop where
  word : WordIn s as (ms ++ cs) mark used kw (header ++ rest) depth []
  split : HeaderTokens s c as (wordAt (width mark + width used) kw) ms cs
  plain : PlainHeader s c
  stop : lastStop (width mark + width used + width kw) ms = width mark + width used + width kw + width header
  behind : cs = tokensFrom [.code depth] (width mark + width used + width kw + width header) rest
  bare : ms = [] → header = []
  last : ∀ t ∈ ms.getLast?, ∃ u c back k, header = u ++ c :: back.take k ∧ rest = back.drop k ∧ HeaderTurn c back k t.lexeme

theorem exists_headerIn {s : String} {c : Clause} (hc : (parse s).clause? = some c) (hp : PlainHeader s c) :
    ∃ as ms cs mark used kw header rest depth, HeaderIn s c as ms cs mark used kw header rest depth := by
  obtain ⟨as, key, ms, cs, h⟩ := exists_headerTokens hc
  obtain ⟨mark, used, kw, tail, depth, outer, hword, rfl⟩ := exists_wordIn h.tokens (by rw [h.begins.1]; rfl)
  obtain rfl := hword.reads.eq_nil_of_balanced (h.balanced hp)
  obtain ⟨header, rest, rfl, hstop, hbehind, hbare, hlast⟩ := exists_header_text hword.behind.symm (h.inHeader hp)
  exact ⟨as, ms, cs, mark, used, kw, header, rest, depth, hword, h, hp, hstop, hbehind, hbare, hlast⟩

/-- The keyword of a clause begins with the letter that nothing grows together with. -/
theorem head_of_namespace {kw : List Char} (h : (wordAt 0 kw).lexeme = .word "namespace") : ∀ c ∈ kw.head?, c = 'n' ∨ c = 'N' := by
  intro c hc
  have hchars : kw.map Char.toLower = "namespace".toList := by
    rw [wordAt, Lexeme.word.injEq] at h
    rw [← h, String.toList_ofList]
  cases kw with
  | nil => cases hc
  | cons d kw =>
      obtain rfl := Option.some.inj hc
      have hlower : d.toLower = 'n' := (List.cons.inj hchars).1
      by_contra hne
      rw [not_or] at hne
      exact toLower_ne (by decide) hne.1 hne.2 hlower

/-- The name in a header that is written anew. -/
theorem textIn_spelledExtent {s' seg : String} {segments : List String} {mark used rest : List Char}
    (hs' : s'.toList = mark ++ (used ++ ("namespace".toList ++ (spelled seg segments ++ rest)))) :
    (spelledExtent (width mark + width used + 9) seg segments).textIn (Utf8.encode s') =
      "\\".intercalate (seg :: segments) := by
  have hname : ("\\".intercalate (seg :: segments)).toList = seg.toList ++ further segments := toList_intercalate _ _
  have htext : s'.toList = (mark ++ used ++ "namespace ".toList) ++ ((seg.toList ++ further segments) ++ rest) := by
    rw [hs', spelled]
    simp
  have hmid := textIn_mid htext
  have hwidth : width (mark ++ used ++ "namespace ".toList) = width mark + width used + 9 + 1 := by
    rw [width_append, width_append]
    rfl
  rw [hwidth] at hmid
  rw [spelledExtent, hmid, ← hname, String.ofList_toList]

theorem lexeme_namespace (n : Nat) : (wordAt n "namespace".toList).lexeme = .word "namespace" := by
  show (wordAt 0 "namespace".toList).lexeme = _
  decide

namespace HeaderIn

variable {s s' : String} {c : Clause} {as ms cs : List Token} {mark used kw header rest : List Char} {depth : Nat}
variable {seg : String} {segments : List String}

theorem ordered (h : HeaderIn s c as ms cs mark used kw header rest depth) :
    Ordered (as ++ wordAt (width mark + width used) kw :: (ms ++ cs)) :=
  h.split.ordered

/-- If neither a string nor an escape begins right behind the header, another header can be written. -/
theorem tokens_respelled (h : HeaderIn s c as ms cs mark used kw header rest depth)
    (hsegments : ∀ t ∈ seg :: segments, isIdentifier t = true)
    (hquiet : header.getLast? = some '\\' → ∀ x ∈ rest.head?, x ∉ ['"', '\x60', '\\']) {fin : List Char} (hfin : fin ∈ [[], [';']])
    (hrest : (fin ++ rest).head?.any isNamePart = false)
    (hs' : s'.toList = mark ++ (used ++ ("namespace".toList ++ (spelled seg segments ++ (fin ++ rest))))) :
    tokens s' = as ++ wordAt (width mark + width used) "namespace".toList ::
      (spelledTokens (width mark + width used + 9) seg segments ++ tokensFrom [.code depth]
        (width mark + width used + 9 + width (spelled seg segments)) (fin ++ rest)) := by
  have hnamed : Named "namespace".toList (spelled seg segments ++ (fin ++ rest)) := by
    refine named_of_isIdentifier (by decide) ?_
    rintro _ ⟨⟩
    decide
  have hclosed : ∀ q ∈ ['"', '\x60'], isClosed q (header ++ rest) = false →
      isClosed q (spelled seg segments ++ (fin ++ rest)) = false := by
    intro q hq hopen
    have hfinal : isClosed q (fin ++ rest) = isClosed q rest := by
      simp only [List.mem_cons, List.not_mem_nil, or_false] at hfin hq
      rcases hfin with rfl | rfl
      · rfl
      · rcases hq with rfl | rfl <;> rfl
    rw [isClosed_spelled hq hsegments, hfinal]
    refine isClosed_of_append (fun hlast x hx => ?_) hopen
    have hx' := hquiet hlast x hx
    simp only [List.mem_cons, List.not_mem_nil, or_false, not_or] at hx' hq
    rcases hq with rfl | rfl
    · exact ⟨hx'.1, hx'.2.2⟩
    · exact ⟨hx'.2.1, hx'.2.2⟩
  have hblock : ¬ ['*', '/'] <:+: header ++ rest → ¬ ['*', '/'] <:+: spelled seg segments ++ (fin ++ rest) := by
    refine mt fun hmark => ?_
    have hfinal : '*' ∉ fin := by
      simp only [List.mem_cons, List.not_mem_nil, or_false] at hfin
      rcases hfin with rfl | rfl <;> decide
    exact (infix_of_append hfinal (infix_of_append (star_notMem_spelled hsegments) hmark)).trans
      (List.suffix_append header rest).isInfix
  have hapart : Lexer.Apart used kw "namespace".toList := by
    refine .inr ⟨head_of_namespace h.split.begins.1, ?_⟩
    rintro _ ⟨⟩
    exact .inl rfl
  rw [h.word.tokens_swap hnamed (.inr rfl) hblock hclosed (.inl rfl) hapart hs', tokensFrom_spelled hsegments hrest]
  rfl

/-- What is to be said of the new text. -/
theorem finds (h : HeaderIn s c as ms cs mark used kw header rest depth) (hc : (parse s).clause? = some c) {fin : List Char}
    (hs' : s'.toList = mark ++ (used ++ ("namespace".toList ++ (spelled seg segments ++ (fin ++ rest)))))
    (hshown : List.Forall₂ (reworded (width mark + width used) (width mark + width used + width kw + width header)
      (width mark + width used + 9 + width (spelled seg segments) + width fin) c.braced
      (spelledExtent (width mark + width used + 9) seg segments)).Shown (sights s) (sights s')) :
    (∃ c', (parse s').clause? = some c' ∧ c'.name = some ("\\".intercalate (seg :: segments))) ∧
      Redeclares s s' (width mark + width used) (width mark + width used + width kw + width header) := by
  refine ⟨?_, ?_⟩
  · rw [← textIn_spelledExtent hs']
    exact exists_clause_of_reworded hc h.split.start (h.split.headerStop.trans (congrArg Nat.cast h.stop)) hshown
  · have hnine : width "namespace".toList = 9 := rfl
    have hold : s.toList = (mark ++ used) ++ ((kw ++ header) ++ rest) := by
      rw [h.word.text]
      simp only [List.append_assoc]
    have hnew : s'.toList = (mark ++ used) ++ (("namespace".toList ++ spelled seg segments ++ fin) ++ rest) := by
      rw [hs']
      simp only [List.append_assoc]
    rw [Nat.add_assoc _ (width kw), ← width_append, ← width_append]
    refine redeclares hold hnew (fun e e' hname => ?_) [] rfl (List.forall_mem_nil _) hshown
    rw [width_append, width_append, width_append, width_append, hnine, ← Nat.add_assoc, ← Nat.add_assoc, ← Nat.add_assoc]
    exact hname

/-- The clause is found in the old text. -/
theorem exists_clauseAt (h : HeaderIn s c as ms cs mark used kw header rest depth) (hc : (parse s).clause? = some c) :
    ∃ x ∈ sights s, (x.child? "name" = none → c.name = none) ∧
      ClauseAt (width mark + width used) (width mark + width used + width kw + width header) c.braced x := by
  obtain ⟨x, hx, hkind, rfl⟩ := Php.exists_clauseAt hc
  refine ⟨x, hx, fun hname => by rw [clauseAt, hname]; rfl, hkind, Int.ofNat.inj h.split.start, ?_, rfl⟩
  rw [← h.stop]
  exact Int.ofNat.inj h.split.headerStop

theorem sights_eq (h : HeaderIn s c as ms cs mark used kw header rest depth) :
    sights s = shown (Outline.start.run (as ++ wordAt (width mark + width used) kw :: (ms ++ cs))).nodes := by
  rw [sights, h.split.tokens]

/-- What the last token of the header says of the characters at its end holds of a header without tokens as well. -/
theorem last_cases (h : HeaderIn s c as ms cs mark used kw header rest depth) :
    ms = [] ∧ header = [] ∨ ∃ t ∈ ms.getLast?, ∃ u c back k, header = u ++ c :: back.take k ∧ rest = back.drop k ∧
      HeaderTurn c back k t.lexeme := by
  cases hlast : ms.getLast? with
  | none =>
      have hms := List.getLast?_eq_none_iff.mp hlast
      exact .inl ⟨hms, h.bare hms⟩
  | some t => exact .inr ⟨t, rfl, h.last t hlast⟩

/-- A clause without a body gets another name. -/
theorem statement_finds (h : HeaderIn s c as ms cs mark used kw header rest depth) (hc : (parse s).clause? = some c)
    (hbraced : c.braced = false) (hsegments : ∀ t ∈ seg :: segments, isIdentifier t = true)
    (hs' : s'.toList = mark ++ (used ++ ("namespace".toList ++ (spelled seg segments ++ ([';'] ++ rest))))) :
    (∃ c', (parse s').clause? = some c' ∧ c'.name = some ("\\".intercalate (seg :: segments))) ∧
      Redeclares s s' (width mark + width used) (width mark + width used + width kw + width header) := by
  obtain ⟨x, hx, -, hat⟩ := h.exists_clauseAt hc
  rw [h.sights_eq] at hx
  rw [hbraced] at hat
  obtain ⟨hsep, hrun⟩ := reworded_statement h.ordered h.split.begins (h.split.inHeader h.plain) h.stop.symm ⟨x, hx, hat⟩
  have hquiet : header.getLast? = some '\\' → ∀ x ∈ rest.head?, x ∉ ['"', '\x60', '\\'] := by
    intro hlast
    rcases h.last_cases with ⟨-, rfl⟩ | ⟨t, ht, u, d, back, k, rfl, rfl, hturn⟩
    · cases hlast
    by_cases hl : t.lexeme = .separator
    · obtain ⟨v, hv, hend⟩ := hsep t ht hl
      rw [h.behind] at hv
      exact quiet_of_head hv hend
    · rw [List.getLast?_append_of_ne_nil _ (List.cons_ne_nil _ _)] at hlast
      exact hturn.quiet hl hlast
  have htokens := h.tokens_respelled hsegments hquiet (List.mem_cons_of_mem _ (List.mem_singleton_self _)) rfl hs'
  rw [List.cons_append, tokensFrom_code_semicolon] at htokens
  refine h.finds hc hs' ?_
  rw [h.sights_eq, sights, htokens, hbraced]
  have hsemi (n : Nat) : (Token.mk .semicolon n (n + 1)).lexeme = .semicolon := rfl
  refine hrun (lexeme_namespace _) (spelt_spelledTokens _ _ _) (hsemi _) ?_
  rw [h.behind]
  exact forall₂_moves _ _ _ _

/-- A clause with a body gets another name. -/
theorem block_finds (h : HeaderIn s c as ms cs mark used kw header rest depth) (hc : (parse s).clause? = some c)
    (hbraced : c.braced = true) (hsegments : ∀ t ∈ seg :: segments, isIdentifier t = true)
    (hs' : s'.toList = mark ++ (used ++ ("namespace".toList ++ (spelled seg segments ++ ([] ++ rest))))) :
    (∃ c', (parse s').clause? = some c' ∧ c'.name = some ("\\".intercalate (seg :: segments))) ∧
      Redeclares s s' (width mark + width used) (width mark + width used + width kw + width header) := by
  obtain ⟨x, hx, hname, hat⟩ := h.exists_clauseAt hc
  rw [h.sights_eq] at hx
  rw [hbraced] at hat
  obtain ⟨hword, hrun⟩ := reworded_block h.ordered h.split.begins (h.split.inHeader h.plain) h.stop.symm hx hat
    fun hnone => h.split.body h.plain hbraced (hname hnone)
  -- the header ends with a word, so no name goes on behind it
  have hends : (∀ c ∈ header.getLast?, c ≠ '\\') ∧ rest.head?.any isNamePart = false := by
    rcases h.last_cases with ⟨-, rfl⟩ | ⟨t, ht, u, d, back, k, rfl, rfl, hturn⟩
    · refine ⟨nofun, ?_⟩
      have hends := h.word.named.ends
      rw [List.nil_append] at hends
      cases hr : rest.head? with
      | none => rfl
      | some y => exact hends y hr
    · obtain ⟨w, hw⟩ := Lexeme.exists_of_isWord (hword t ht)
      rw [hw] at hturn
      cases hturn with
      | word hd hk =>
          subst hk
          have hnamed := named_takeWhile hd back
          rw [take_run, drop_run, List.getLast?_append_of_ne_nil _ (List.cons_ne_nil _ _)]
          refine ⟨fun y hy hback => ?_, ?_⟩
          · subst hback
            exact absurd (hnamed.part _ (List.mem_of_getLast? hy)) (by decide)
          · cases hr : (back.dropWhile isNamePart).head? with
            | none => rfl
            | some y => exact hnamed.ends y hr
  have htokens := h.tokens_respelled hsegments (fun hlast => absurd rfl (hends.1 _ hlast)) List.mem_cons_self hends.2 hs'
  refine h.finds hc hs' ?_
  rw [h.sights_eq, sights, htokens, hbraced]
  have hstop : (spelledExtent (width mark + width used + 9) seg segments).stop =
      width mark + width used + 9 + width (spelled seg segments) + width [] := by
    rw [width_spelled, ← Nat.add_assoc]
    rfl
  rw [← hstop]
  refine hrun (lexeme_namespace _) (spelt_spelledTokens _ _ _) ?_
  rw [h.behind, hstop]
  exact forall₂_moves _ _ _ _

end HeaderIn

/-- The first clause has a plain header that covers `old`; if what is written for it stands in its place, the first clause
of the text has the new name, and the first type is declared as it was. -/
theorem exists_replaced {s : String} {c : Clause} {seg : String} {segments : List String}
    (hc : (parse s).clause? = some c) (hp : PlainHeader s c)
    (hsegments : ∀ t ∈ seg :: segments, isIdentifier t = true) :
    ∃ front old back, s.toList = front ++ (old ++ back) ∧ c.start = width front ∧ c.headerStop = width front + width old ∧
      ∀ s', s'.toList = front ++ ((Corrections.replacement ("\\".intercalate (seg :: segments)) c).toList ++ back) →
        (∃ c', (parse s').clause? = some c' ∧ c'.name = some ("\\".intercalate (seg :: segments))) ∧
          Redeclares s s' (width front) (width front + width old) := by
  obtain ⟨as, ms, cs, mark, used, kw, header, rest, depth, h⟩ := exists_headerIn hc hp
  have hname : ("\\".intercalate (seg :: segments)).toList = seg.toList ++ further segments := toList_intercalate _ _
  refine ⟨mark ++ used, kw ++ header, rest, ?_, ?_, ?_, fun s' hs' => ?_⟩
  · rw [h.word.text]
    simp only [List.append_assoc]
  · rw [h.split.start, width_append]
    rfl
  · rw [h.split.headerStop, width_append, width_append, ← Nat.cast_add, ← Nat.add_assoc]
    exact congrArg Nat.cast h.stop
  · have hspelled : "namespace".toList ++ spelled seg segments = "namespace ".toList ++ (seg.toList ++ further segments) := rfl
    rw [width_append, width_append, ← Nat.add_assoc]
    cases hbraced : c.braced with
    | false =>
        refine h.statement_finds hc hbraced hsegments ?_
        rw [hs', Corrections.replacement, hbraced, Corrections.statement, if_neg Bool.false_ne_true, String.toList_append,
          String.toList_append, hname, ← hspelled]
        simp only [List.append_assoc]
        rfl
    | true =>
        refine h.block_finds hc hbraced hsegments ?_
        rw [hs', Corrections.replacement, hbraced, if_pos rfl, String.toList_append, hname, ← hspelled]
        simp only [List.append_assoc, List.nil_append]

end Namesake.Php
