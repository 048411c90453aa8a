import Namesake.Proofs.Identifiers
import Namesake.Proofs.Overlap
import Namesake.Reconciler

/-! Texts without an opening tag. In an empty or blank text the clause is put in with a tag before it, and then the text
has the clause: it is the first one, and nothing more is put in. In pure markup the statement is put in as it is, which
is more markup: the text still has no tag and no clause, and the next time the statement is put in again. -/

namespace Namesake

open Text Syntax

namespace Php

open Lexer

variable {s : String} {segments : List String} {rest : List Char}

/-! ### The outline -/

namespace Outline

variable {o : Outline} {ts : List Token}

/-- Text where a statement may begin changes nothing. -/
theorem run_text (h : ∀ t ∈ ts, t.lexeme = .text) (hphase : o.top.phase = .ready none false)
    (hcontent : o.top.content = .statements) : (o.run ts).top = o.top ∧ (o.run ts).outer = o.outer := by
  induction ts generalizing o with
  | nil => exact ⟨rfl, rfl⟩
  | cons t ts ih =>
      obtain ⟨ht, hts⟩ := List.forall_mem_cons.mp h
      obtain ⟨l, first, stop⟩ := t
      cases ht
      have hcoded (next : Option Lexeme) : o.coded ⟨.text, first, stop⟩ next = o := by
        unfold coded
        rw [hphase, hcontent]
        rfl
      have hstep : o.step ⟨.text, first, stop⟩ ts = { o with last := stop, anchor := stop } := by
        unfold step
        dsimp only
        rw [hcoded]
      rw [run, hstep]
      exact ih hts hphase hcontent

theorem step_separator {k e : Extent} {joined : Bool} (hphase : o.top.phase = .naming ⟨k, some e, joined⟩)
    (first stop : Nat) : o.step ⟨.separator, first, stop⟩ ts =
      { o.enter (.naming ⟨k, some e, true⟩) with last := stop, anchor := stop } := by
  have hcoded (next : Option Lexeme) :
      o.coded ⟨.separator, first, stop⟩ next = o.enter (.naming ⟨k, some e, true⟩) := by
    unfold coded
    rw [hphase]
    rfl
  unfold step
  dsimp only
  rw [hcoded]

theorem step_segment {k e : Extent} (hphase : o.top.phase = .naming ⟨k, some e, true⟩) (w : String)
    (first stop : Nat) : o.step ⟨.word w, first, stop⟩ ts =
      { o.enter (.naming ⟨k, some ⟨e.start, stop⟩, false⟩) with last := stop, anchor := stop } := by
  have hcoded (next : Option Lexeme) :
      o.coded ⟨.word w, first, stop⟩ next = o.enter (.naming ⟨k, some ⟨e.start, stop⟩, false⟩) := by
    unfold coded
    rw [hphase]
    rfl
  unfold step
  dsimp only
  rw [hcoded]

/-- The further segments of a name and the semicolon end the clause. -/
theorem run_further {k : Extent} {a : Nat} (offset : Nat)
    (hphase : o.top.phase = .naming ⟨k, some ⟨a, offset⟩, false⟩) (segments : List String) :
    let stop := offset + width (further segments)
    let o' := o.run (furtherTokens offset segments ++ [⟨.semicolon, stop, stop + 1⟩])
    o'.top = o.top.endClause ⟨k, some ⟨a, stop⟩, false⟩ (stop + 1) ∧ o'.outer = o.outer := by
  induction segments generalizing o offset with
  | nil =>
      have hcoded : o.coded ⟨.semicolon, offset, offset + 1⟩ none =
          { o with top := o.top.endClause ⟨k, some ⟨a, offset⟩, false⟩ (offset + 1) } := by
        unfold coded
        rw [hphase]
        rfl
      show (o.step _ []).top = _ ∧ (o.step _ []).outer = _
      unfold step
      dsimp only
      rw [show width (further []) = 0 from rfl, Nat.add_zero, List.find?_nil, Option.map_none, hcoded]
      exact ⟨rfl, rfl⟩
  | cons s segments ih =>
      intro stop o'
      have hstop : offset + 1 + width s.toList + width (further segments) = stop := width_further_cons offset s segments
      let o₁ : Outline :=
        { o.enter (.naming ⟨k, some ⟨a, offset⟩, true⟩) with last := offset + 1, anchor := offset + 1 }
      let o₂ : Outline :=
        { o₁.enter (.naming ⟨k, some ⟨a, offset + 1 + width s.toList⟩, false⟩) with
          last := offset + 1 + width s.toList, anchor := offset + 1 + width s.toList }
      have hseparator (ts : List Token) : o.step ⟨.separator, offset, offset + 1⟩ ts = o₁ := step_separator hphase _ _
      have hsegment (ts : List Token) : o₁.step (wordAt (offset + 1) s.toList) ts = o₂ :=
        @step_segment o₁ ts k ⟨a, offset⟩ rfl _ _ _
      have hrun : o' = o₂.run (furtherTokens (offset + 1 + width s.toList) segments ++
          [⟨.semicolon, stop, stop + 1⟩]) := by
        show ((o.step _ _).step (wordAt (offset + 1) s.toList) _).run _ = _
        rw [hseparator, hsegment]
        rfl
      obtain ⟨htop, houter⟩ := ih (offset + 1 + width s.toList) (o := o₂) rfl
      rw [hstop] at htop houter
      rw [hrun]
      exact ⟨htop, houter⟩

/-- The nodes of a clause without a body. -/
def clauseNode (k e : Extent) (stop : Nat) : Syntax.Node :=
  .mk Tree.clauseKind k.start stop none [.mk "namespace" k.start k.stop none [],
    .mk "namespace_name" e.start e.stop (some "name") []]

/-- A tag and a clause give the clause alone. -/
theorem nodes_statement (s : String) (segments : List String) (i j k : Nat) :
    let name := j + width s.toList
    let stop := name + width (further segments)
    (start.run (⟨.enter, 0, i⟩ :: wordAt k "namespace".toList :: wordAt j s.toList ::
      (furtherTokens name segments ++ [⟨.semicolon, stop, stop + 1⟩]))).nodes =
        [clauseNode ⟨k, k + width "namespace".toList⟩ ⟨j, stop⟩ (stop + 1)] := by
  intro name stop
  let kw : Extent := ⟨k, k + width "namespace".toList⟩
  let o₁ : Outline := { start with last := i, anchor := i }
  let o₂ : Outline := { o₁.enter (.naming ⟨kw, none, false⟩) with last := kw.stop, anchor := kw.stop }
  let o₃ : Outline := { o₂.enter (.naming ⟨kw, some ⟨j, name⟩, false⟩) with last := name, anchor := name }
  have htag (ts : List Token) : start.step ⟨.enter, 0, i⟩ ts = o₁ := rfl
  have hkeyword (ts : List Token) : o₁.step (wordAt k "namespace".toList) (wordAt j s.toList :: ts) = o₂ := by
    have hlower : String.ofList ("namespace".toList.map Char.toLower) = "namespace" := by decide
    have hkind : kindOf? "namespace" = none := by decide
    have hbegun (w : String) : o₁.coded ⟨.word "namespace", k, kw.stop⟩ (some (.word w)) =
        o₁.enter (.naming ⟨kw, none, false⟩) := by
      show o₁.begun "namespace" ⟨.word "namespace", k, kw.stop⟩ (some (.word w)) none false = _
      unfold begun
      rw [hkind]
      exact if_pos (by simp)
    rw [wordAt, hlower]
    show { o₁.coded ⟨.word "namespace", k, kw.stop⟩ (some (.word _)) with last := kw.stop, anchor := kw.stop } = o₂
    rw [hbegun]
  have hname (ts : List Token) : o₂.step (wordAt j s.toList) ts = o₃ := rfl
  have hrun : start.run (⟨.enter, 0, i⟩ :: wordAt k "namespace".toList :: wordAt j s.toList ::
      (furtherTokens name segments ++ [⟨.semicolon, stop, stop + 1⟩])) =
        o₃.run (furtherTokens name segments ++ [⟨.semicolon, stop, stop + 1⟩]) := by
    rw [run, htag, run, hkeyword, run, hname]
  obtain ⟨htop, houter⟩ := run_further name (o := o₃) rfl segments
  rw [hrun, nodes, htop, houter]
  rfl

end Outline

/-! ### The tree of a text without an opening tag -/

/-- The characters after a byte order mark, if there is one, which is left out. -/
def IsMark (mark cs : List Char) : Prop :=
  mark = ['\ufeff'] ∨ mark = [] ∧ cs.head? ≠ some '\ufeff'

/-- The characters of a text without the byte order mark that it may begin with. -/
def unmarked : List Char → List Char
  | '\ufeff' :: cs => cs
  | cs => cs

theorem exists_mark (cs : List Char) : ∃ mark, cs = mark ++ unmarked cs ∧ IsMark mark (unmarked cs) := by
  by_cases h : cs.head? = some '\ufeff'
  · obtain ⟨rest, rfl⟩ := List.head?_eq_some_iff.mp h
    exact ⟨['\ufeff'], rfl, .inl rfl⟩
  · have hcs : unmarked cs = cs := by
      rw [unmarked]
      rintro rest rfl
      exact h rfl
    rw [hcs]
    exact ⟨[], rfl, .inr ⟨rfl, h⟩⟩

variable {mark cs : List Char} {text : String}

theorem tokens_eq (h : text.toList = mark ++ cs) (hmark : IsMark mark cs) :
    tokens text = tokensFrom [.outside, .code 0] (width mark) cs := by
  rw [tokens, h]
  rcases hmark with rfl | ⟨rfl, hhead⟩
  · rfl
  · split
    · rename_i rest heq
      rw [List.nil_append] at heq
      exact absurd (congrArg List.head? heq) hhead
    · rfl

/-- Pieces of text are one node. -/
theorem front_of_text {ts : List Token} (h : ∀ t ∈ ts, t.lexeme = .text) :
    ∃ first, front ts = (ts.getLast?.map fun last => .mk Tree.textKind first last.stop none []).toList := by
  have htake : (ts.takeWhile fun t => t.lexeme == .text) = ts :=
    List.takeWhile_eq_self_iff.mpr fun t ht => beq_iff_eq.mpr (h t ht)
  rw [front, htake, List.getElem?_eq_none le_rfl]
  cases ts with
  | nil => exact ⟨0, rfl⟩
  | cons t ts =>
      refine ⟨t.start, ?_⟩
      rw [List.head?_cons, List.getLast?_cons, List.append_nil]
      rfl

/-- What is no text gives a tag. -/
theorem front_of_not_text {ts : List Token} (h : ∃ t ∈ ts, t.lexeme ≠ .text) :
    ∃ first stop a b, front ts = [.mk Tree.tagKind a b none []] ∨
      front ts = [.mk Tree.textKind first stop none [], .mk Tree.tagKind a b none []] := by
  obtain ⟨t, ht, hlexeme⟩ := h
  have hlength : (ts.takeWhile fun t => t.lexeme == .text).length < ts.length := by
    refine lt_of_le_of_ne (List.takeWhile_prefix _).length_le fun heq => hlexeme ?_
    have htake := (List.takeWhile_prefix (fun t : Token => t.lexeme == .text)).eq_of_length heq
    exact eq_of_beq (List.takeWhile_eq_self_iff.mp htake t ht)
  obtain ⟨u, hu⟩ : ∃ u, ts[(ts.takeWhile fun t => t.lexeme == .text).length]? = some u :=
    ⟨_, List.getElem?_eq_getElem hlength⟩
  rw [front, hu]
  cases htexts : ts.takeWhile fun t => t.lexeme == .text with
  | nil => exact ⟨0, 0, _, _, .inl rfl⟩
  | cons first texts =>
      rw [List.head?_cons, List.getLast?_cons]
      exact ⟨_, _, _, _, .inr rfl⟩

theorem firstIn_nil {wanted : String → Bool} : Node.firstIn wanted [] = none := by
  rw [Node.firstIn]

/-- The first nodes of some kinds among those of a text and a tag. -/
theorem firstIn_leaf {wanted : String → Bool} {kind : String} {a b : Nat} {field : Option String}
    {rest : List Syntax.Node} : Node.firstIn wanted (.mk kind a b field [] :: rest) =
      if wanted kind then some (.mk kind a b field []) else Node.firstIn wanted rest := by
  rw [Node.firstIn]
  rfl

theorem first?_program {kinds : List String} (h : kinds.contains "program" = false) {a b : Nat}
    {children : List Syntax.Node} : (Node.mk "program" a b none children).first? kinds =
      Node.firstIn (fun k => kinds.contains k) children := by
  have hkind : ¬ kinds.contains (Node.mk "program" a b none children).kind = true := by
    rw [Node.kind, h]
    exact Bool.false_ne_true
  rw [Node.first?, Node.firstIn, if_neg hkind, Node.children, List.append_nil]

theorem exists_tag {ts : List Token} (h : ∃ t ∈ ts, t.lexeme ≠ .text) (a b : Nat) (rest : List Syntax.Node) :
    (Node.mk "program" a b none (front ts ++ rest)).first? [Tree.tagKind] ≠ none := by
  rw [first?_program (by decide)]
  obtain ⟨first, stop, a, b, hfront | hfront⟩ := front_of_not_text h
  · rw [hfront, List.singleton_append, firstIn_leaf, if_pos (by decide)]
    nofun
  · rw [hfront, List.cons_append, firstIn_leaf, if_neg (by decide), List.singleton_append, firstIn_leaf,
      if_pos (by decide)]
    nofun

/-- What a tree says in which there is no code: text is all there is, up to the offset. -/
structure IsMarkup (t : Tree) (stop : Option Nat) : Prop where
  tag : t.root.first? [Tree.tagKind] = none
  clause : t.clause? = none
  declaration : t.declaration? = none
  leading : t.leading? = stop

theorem isMarkup_parse (h : ∀ t ∈ tokens text, t.lexeme = .text) :
    IsMarkup (parse text) ((tokens text).getLast?.map Token.stop) := by
  obtain ⟨first, hfront⟩ := front_of_text h
  have hnodes : (Outline.start.run (tokens text)).nodes = [] := by
    obtain ⟨htop, houter⟩ := Outline.run_text (o := Outline.start) h rfl rfl
    rw [Outline.nodes, htop, houter]
    rfl
  have hparse : parse text = ⟨Utf8.encode text, .mk "program" 0 (Utf8.encode text).length none
      ((tokens text).getLast?.map fun last => .mk Tree.textKind first last.stop none []).toList⟩ := by
    rw [parse, hfront, hnodes, List.append_nil]
  have hfirst (kinds : List String) (hprogram : kinds.contains "program" = false)
      (htext : kinds.contains Tree.textKind = false) : (parse text).root.first? kinds = none := by
    rw [hparse, first?_program hprogram]
    cases (tokens text).getLast? with
    | none => exact firstIn_nil
    | some last =>
        rw [Option.map_some, Option.toList_some, firstIn_leaf, if_neg (by rw [htext]; nofun), firstIn_nil]
  refine ⟨hfirst _ (by decide) (by decide), ?_, ?_, ?_⟩
  · rw [Tree.clause?, hfirst _ (by decide) (by decide)]
    rfl
  · rw [Tree.declaration?, hfirst _ (by decide) (by decide)]
    rfl
  · rw [Tree.leading?, hparse]
    cases (tokens text).getLast? <;> rfl

theorem tagless_of_first? (htext : text.toList = mark ++ cs) (hmark : IsMark mark cs)
    (h : (parse text).root.first? [Tree.tagKind] = none) : Tagless cs := by
  by_contra hcs
  obtain ⟨t, ht, hlexeme⟩ := exists_enter hcs [.code 0] (width mark)
  rw [← tokens_eq htext hmark] at ht
  have hne : ∃ t ∈ tokens text, t.lexeme ≠ .text := ⟨t, ht, by rw [hlexeme]; nofun⟩
  exact exists_tag hne 0 (Utf8.encode text).length (Outline.start.run (tokens text)).nodes h

/-- Without an opening tag there is markup alone. -/
theorem exists_isMarkup (htext : text.toList = mark ++ cs) (hmark : IsMark mark cs) (h : Tagless cs) :
    ∃ front back, Pieces cs (width mark) (tokens text) front back ∧
      IsMarkup (parse text) (if front = [] then none else some (width (mark ++ front))) := by
  obtain ⟨front, back, hpieces⟩ := exists_pieces h [.code 0] (width mark)
  rw [← tokens_eq htext hmark] at hpieces
  refine ⟨front, back, hpieces, ?_⟩
  rw [width_append, ← hpieces.stop]
  exact isMarkup_parse hpieces.text

/-- What is put into a text where its markup ends is markup too, to the end of the text, if it opens no tag. -/
theorem isMarkup_put {front back tail : List Char} (hmark : IsMark mark (front ++ back)) (h : Tagless (front ++ back))
    (hfront : front ≠ []) (hlt : '<' ∉ tail) (hhead : tail.head? ≠ some '?') (hsolid : ∃ c ∈ tail, Lexer.isBlank c = false)
    (htext : text.toList = mark ++ (front ++ tail)) : IsMarkup (parse text) (some (width text.toList)) := by
  have hmark' : IsMark mark (front ++ tail) := by
    refine hmark.imp_right fun ⟨hnil, hhead⟩ => ⟨hnil, ?_⟩
    rw [List.head?_append_of_ne_nil _ hfront] at hhead
    rwa [List.head?_append_of_ne_nil _ hfront]
  have htagless : Tagless (front ++ tail) := (tagless_append hhead).mpr ⟨h.of_append, tagless_of_notMem hlt⟩
  obtain ⟨front', back', hpieces, hmarkup⟩ := exists_isMarkup htext hmark' htagless
  have hback : back' = [] := hpieces.back_eq_nil hlt hsolid
  have hwhole : front ++ tail = front' := by rw [hpieces.split, hback, List.append_nil]
  rwa [← hwhole, ← htext, if_neg (List.append_ne_nil_of_left_ne_nil hfront _)] at hmarkup

/-! ### The tree of a text that begins with a statement -/

/-- A tag and the keyword of a clause. -/
def opening : List Char :=
  "<?php\n\nnamespace ".toList

theorem tokensFrom_opening (rest : List Char) : tokensFrom [.outside, .code 0] 0 (opening ++ rest) =
    ⟨.enter, 0, 5⟩ :: wordAt 7 "namespace".toList :: tokensFrom [.code 0] 17 rest := by
  have hchars : opening ++ rest = '<' :: '?' :: 'p' :: 'h' :: 'p' ::
      (['\n', '\n'] ++ ('n' :: "amespace".toList ++ ([' '] ++ rest))) := rfl
  have hstep (cs : List Char) : step [.outside, .code 0] '<' ('?' :: 'p' :: 'h' :: 'p' :: cs) =
      ⟨some .enter, 4, [.code 0]⟩ := rfl
  have hword := @tokensFrom_code_word 'n' "amespace".toList [] 7 0 ([' '] ++ rest) (by decide) (by decide)
    (List.all_eq_true.mp (by decide)) rfl
  rw [hchars, tokensFrom_cons, hstep]
  show _ :: tokensFrom [.code 0] 5 (['\n', '\n'] ++ _) = _
  rw [tokensFrom_code_skip (List.all_eq_true.mp (by decide))]
  show _ :: tokensFrom [.code 0] 7 _ = _
  rw [hword]
  show _ :: _ :: tokensFrom [.code 0] 16 ([' '] ++ rest) = _
  rw [tokensFrom_code_skip (List.all_eq_true.mp (by decide))]
  rfl

theorem tokens_statement (htext : text.toList = opening ++ (s.toList ++ (further segments ++ ';' :: rest)))
    (hs : isIdentifier s = true) (hsegments : ∀ t ∈ segments, isIdentifier t = true)
    (hrest : ∀ c ∈ rest, (Lexer.isBlank c || isGap c) = true) :
    let name := 17 + width s.toList
    let stop := name + width (further segments)
    tokens text = ⟨.enter, 0, 5⟩ :: wordAt 7 "namespace".toList :: wordAt 17 s.toList ::
      (furtherTokens name segments ++ [⟨.semicolon, stop, stop + 1⟩]) := by
  intro name stop
  have hmark : IsMark [] text.toList := .inr ⟨rfl, by rw [htext]; nofun⟩
  have hblank := tokensFrom_code_skip hrest 0 [] (stop + 1) []
  rw [List.append_nil, tokensFrom_nil] at hblank
  rw [tokens_eq rfl hmark, htext]
  show tokensFrom _ 0 _ = _
  rw [tokensFrom_opening, tokensFrom_identifier hs (head?_further segments rfl), tokensFrom_further hsegments rfl,
    tokensFrom_code_semicolon, hblank]

theorem parse_statement (htext : text.toList = opening ++ (s.toList ++ (further segments ++ ';' :: rest)))
    (hs : isIdentifier s = true) (hsegments : ∀ t ∈ segments, isIdentifier t = true)
    (hrest : ∀ c ∈ rest, (Lexer.isBlank c || isGap c) = true) :
    let stop := 17 + width s.toList + width (further segments)
    parse text = ⟨Utf8.encode text, .mk "program" 0 (Utf8.encode text).length none
      [.mk Tree.tagKind 0 5 none [], Outline.clauseNode ⟨7, 16⟩ ⟨17, stop⟩ (stop + 1)]⟩ := by
  intro stop
  have htokens := tokens_statement htext hs hsegments hrest
  have hfront : front (tokens text) = [.mk Tree.tagKind 0 5 none []] := by
    rw [htokens]
    rfl
  have hnodes := Outline.nodes_statement s segments 5 17 7
  dsimp only at htokens hnodes
  rw [← htokens] at hnodes
  rw [parse, hfront, hnodes]
  rfl

theorem clause?_statement (htext : text.toList = opening ++ (s.toList ++ (further segments ++ ';' :: rest)))
    (hs : isIdentifier s = true) (hsegments : ∀ t ∈ segments, isIdentifier t = true)
    (hrest : ∀ c ∈ rest, (Lexer.isBlank c || isGap c) = true) :
    (∃ clause, (parse text).clause? = some clause ∧ clause.name = some ("\\".intercalate (s :: segments))) ∧
      (parse text).declaration? = none := by
  let stop := 17 + width s.toList + width (further segments)
  have hparse : parse text = ⟨Utf8.encode text, .mk "program" 0 (Utf8.encode text).length none
      [.mk Tree.tagKind 0 5 none [], Outline.clauseNode ⟨7, 16⟩ ⟨17, stop⟩ (stop + 1)]⟩ :=
    parse_statement htext hs hsegments hrest
  have hname : (parse text).slice 17 stop = "\\".intercalate (s :: segments) := by
    have hsource : Utf8.encode text = Utf8.encodeChars opening ++ (Utf8.encodeChars (s.toList ++ further segments) ++
        Utf8.encodeChars (';' :: rest)) := by
      rw [Utf8.encode, htext, ← Utf8.encodeChars_append, ← Utf8.encodeChars_append, List.append_assoc]
    have hopening : (Utf8.encodeChars opening).length = 17 := by decide
    have hlength : (Utf8.encodeChars (s.toList ++ further segments)).length =
        width s.toList + width (further segments) := by
      rw [← width_eq, width_append]
    have hstop : (Utf8.encodeChars opening ++ Utf8.encodeChars (s.toList ++ further segments)).length = stop := by
      rw [List.length_append, hopening, hlength, ← Nat.add_assoc]
    calc (parse text).slice 17 stop = Utf8.decodeLossy (Utf8.encodeChars (s.toList ++ further segments)) := by
          rw [hparse, Tree.slice, hsource, ← List.append_assoc, List.take_left' hstop, List.drop_left' hopening]
      _ = "\\".intercalate (s :: segments) := by
          rw [Utf8.decodeLossy_encodeChars, ← toList_intercalate, String.ofList_toList]
  have hclause : (parse text).root.first? [Tree.clauseKind] =
      some (Outline.clauseNode ⟨7, 16⟩ ⟨17, stop⟩ (stop + 1)) := by
    rw [hparse, first?_program (by decide), firstIn_leaf, if_neg (by decide), Outline.clauseNode, Node.firstIn]
    exact if_pos (show [Tree.clauseKind].contains Tree.clauseKind = true by decide)
  have hdeclaration : (parse text).root.first? (TypeKind.all.map TypeKind.nodeKind) = none := by
    have hkinds : ∀ kind ∈ [Tree.tagKind, Tree.clauseKind, "namespace", "namespace_name"],
        ¬ (TypeKind.all.map TypeKind.nodeKind).contains kind = true := by decide
    rw [hparse, first?_program (by decide), firstIn_leaf, if_neg (hkinds _ (by simp)), Outline.clauseNode,
      Node.firstIn, if_neg (hkinds _ (by simp [Node.kind])), Node.children, List.append_nil, firstIn_leaf,
      if_neg (hkinds _ (by simp)), firstIn_leaf, if_neg (hkinds _ (by simp)), firstIn_nil]
  constructor
  · refine ⟨_, by rw [Tree.clause?, hclause, Option.map_some], ?_⟩
    rw [← hname]
    rfl
  · rw [Tree.declaration?, hdeclaration]
    rfl

end Php

namespace Edit

open Php.Lexer

/-- Something put in between characters. -/
theorem applyAll_insertion {text : String} {front back : List Char} (h : text.toList = front ++ back)
    (replacement : String) : applyAll [⟨width front, 0, replacement⟩] text =
      .ok (String.ofList (front ++ (replacement.toList ++ back))) := by
  have hdata : Utf8.encode text = Utf8.encodeChars front ++ Utf8.encodeChars back := by
    rw [Utf8.encode, h, Utf8.encodeChars_append]
  have hsorted : sorted [⟨width front, 0, replacement⟩] = [⟨width front, 0, replacement⟩] := List.mergeSort_singleton _
  have hapart : ¬ Overlapping [⟨width front, 0, replacement⟩] :=
    (not_overlapping_iff _).mpr (List.pairwise_singleton _ _)
  have hfit : ∀ e ∈ ([⟨width front, 0, replacement⟩] : List Edit), e.stop ≤ (Utf8.encode text).length := by
    rw [List.forall_mem_singleton, hdata, List.length_append, stop, Nat.add_zero, width_eq]
    exact Nat.le_add_right _ _
  have hweave : weave (Utf8.encode text) 0 [⟨width front, 0, replacement⟩] =
      Utf8.encode (String.ofList (front ++ (replacement.toList ++ back))) := by
    calc weave (Utf8.encode text) 0 [⟨width front, 0, replacement⟩]
        = (Utf8.encode text).take (width front) ++ Utf8.encode replacement ++ (Utf8.encode text).drop (width front) := by
          rw [weave, weave, stop, Nat.add_zero, List.drop_zero]
      _ = Utf8.encodeChars front ++ Utf8.encode replacement ++ Utf8.encodeChars back := by
          rw [hdata, width_eq, List.take_left, List.drop_left]
      _ = Utf8.encode (String.ofList (front ++ (replacement.toList ++ back))) := by
          rw [Utf8.encode_ofList, Utf8.encodeChars_append, Utf8.encodeChars_append, Utf8.encode, List.append_assoc]
  rw [applyAll, applyOctets_of_fits (hsorted.symm ▸ hapart) hfit, hsorted, hweave]
  dsimp only
  rw [Utf8.decode?_encode]

end Edit

namespace Reconciler

open Php Lexer

variable {r : Reconciler} {v : Vantage} {u : SourceUnit} {path : String} {c : ClassName}

/-- The edits for a tree, where the class is known. -/
theorem reconcile_eq (hpath : filePath u = .ok path) (hbest : r.best v path = .ok (.ok c)) {k : Corrections}
    (hk : Corrections.ofTree (r.parse u.text) c = .ok k) : r.reconcile v u = .ok k.edits := by
  have hcompute : r.compute v u = .ok (.ok k) := by
    unfold compute
    rw [hpath]
    dsimp only
    rw [hbest]
    dsimp only
    rw [hk]
  rw [reconcile, hcompute]

/-- In markup the statement is put in where the text ends. -/
theorem reconcile_of_isMarkup (hpath : filePath u = .ok path) (hbest : r.best v path = .ok (.ok c))
    (hspace : c.space ≠ "") {stop : Option Nat} (h : IsMarkup (r.parse u.text) stop) :
    r.reconcile v u = .ok [⟨stop.getD 0, 0, Corrections.insertion c.space (stop.getD 0)⟩] := by
  let fix : SpaceCorrection := ⟨⟨stop.getD 0, 0, Corrections.insertion c.space (stop.getD 0)⟩, c.space, none⟩
  have hfix : Corrections.fixSpace (r.parse u.text) c.space = .ok (some fix) := by
    rw [Corrections.fixSpace, if_neg hspace, h.clause, h.leading]
  have hname : Corrections.fixName (r.parse u.text) c.name = .ok none := by
    rw [Corrections.fixName, h.declaration]
  have hk : Corrections.ofTree (r.parse u.text) c = .ok ⟨c, some fix, none⟩ := by
    rw [Corrections.ofTree, hfix, hname]
    rfl
  exact reconcile_eq hpath hbest hk

/-- Where the clause is right and no type is declared there is nothing to do. -/
theorem reconcile_of_clause (hpath : filePath u = .ok path) (hbest : r.best v path = .ok (.ok c)) {clause : Clause}
    (hclause : (r.parse u.text).clause? = some clause) (hname : clause.name = some c.space)
    (hdeclaration : (r.parse u.text).declaration? = none) : r.reconcile v u = .ok [] := by
  have hfix : Corrections.fixSpace (r.parse u.text) c.space = .ok none := by
    rw [Corrections.fixSpace, hclause]
    dsimp only
    rw [if_pos hname, ite_self]
  have hfixName : Corrections.fixName (r.parse u.text) c.name = .ok none := by
    rw [Corrections.fixName, hdeclaration]
  have hk : Corrections.ofTree (r.parse u.text) c = .ok ⟨c, none, none⟩ := by
    rw [Corrections.ofTree, hfix, hfixName]
    rfl
  exact reconcile_eq hpath hbest hk

/-! ### Names -/

theorem lt_notMem_of_isIdentifier {s : String} (h : isIdentifier s = true) : '<' ∉ s.toList := by
  rw [isIdentifier] at h
  intro hlt
  split at h
  · cases h
  · rename_i c cs hchars
    rw [hchars] at hlt
    rw [Bool.and_eq_true, List.all_eq_true] at h
    rcases List.mem_cons.mp hlt with rfl | hmem
    · exact absurd h.1 (by decide)
    · exact absurd (h.2 '<' hmem) (by decide)

/-- The statement on a line of its own, as it is put in behind markup. -/
def line (space : String) : String :=
  "\n" ++ Corrections.statement space ++ "\n"

variable {s : String} {segments : List String}

theorem toList_line (s : String) (segments : List String) : (line ("\\".intercalate (s :: segments))).toList =
    "\nnamespace ".toList ++ (s.toList ++ (further segments ++ [';', '\n'])) := by
  rw [line, Corrections.statement, String.toList_append, String.toList_append, String.toList_append,
    String.toList_append, toList_intercalate]
  simp only [List.append_assoc]
  rfl

theorem lt_notMem_line (h : ∀ t ∈ s :: segments, isIdentifier t = true) :
    '<' ∉ (line ("\\".intercalate (s :: segments))).toList := by
  obtain ⟨hs, hsegments⟩ := List.forall_mem_cons.mp h
  have hfurther : '<' ∉ further segments := by
    intro hlt
    obtain ⟨t, ht, hmem⟩ := List.mem_flatMap.mp hlt
    exact lt_notMem_of_isIdentifier (hsegments t ht) (List.mem_of_ne_of_mem (by decide) hmem)
  rw [toList_line]
  simp only [List.mem_append, not_or]
  exact ⟨by decide, lt_notMem_of_isIdentifier hs, hfurther, by decide⟩

/-! ### What is put in -/

theorem ne_empty_of_segments (h : ∀ t ∈ s :: segments, isIdentifier t = true)
    (hspace : c.space = "\\".intercalate (s :: segments)) : c.space ≠ "" := by
  intro hempty
  have hchars := toList_intercalate s segments
  rw [← hspace, hempty, String.toList_empty] at hchars
  have hs := (List.forall_mem_cons.mp h).1
  rw [isIdentifier, (List.append_eq_nil_iff.mp hchars.symm).1] at hs
  cases hs

/-- Into a blank text a tag and the statement are put, and then the text has the clause. -/
theorem reconcile_blank {resolver : Resolver} (hpath : filePath u = .ok path)
    (hbest : resolver.best v path = .ok (.ok c)) (hsegments : ∀ t ∈ s :: segments, isIdentifier t = true)
    (hspace : c.space = "\\".intercalate (s :: segments))
    (hblank : ∀ d ∈ unmarked u.text.toList, Lexer.isBlank d = true) :
    let r := ofResolver resolver Php.parse
    let text' := "<?php\n" ++ line c.space ++ u.text
    let u' : SourceUnit := { u with text := text' }
    r.reconcile v u = .ok [⟨0, 0, "<?php\n" ++ line c.space⟩] ∧
      (∃ clause, (Php.parse text').clause? = some clause ∧ clause.name = some c.space) ∧ r.reconcile v u' = .ok [] := by
  intro r text' u'
  obtain ⟨mark, htext, hmark⟩ := exists_mark u.text.toList
  have hlt : '<' ∉ unmarked u.text.toList := fun h => absurd (hblank '<' h) (by decide)
  obtain ⟨front, back, hpieces, hmarkup⟩ := exists_isMarkup htext hmark (tagless_of_notMem hlt)
  rw [if_pos (hpieces.front_eq_nil_iff.mpr hblank)] at hmarkup
  have hchars : text'.toList = opening ++ (s.toList ++ (further segments ++ ';' :: '\n' :: u.text.toList)) := by
    show ("<?php\n" ++ line c.space ++ u.text).toList = _
    rw [String.toList_append, String.toList_append, hspace, toList_line]
    simp only [List.append_assoc]
    rfl
  have hskip : ∀ d ∈ '\n' :: u.text.toList, (Lexer.isBlank d || isGap d) = true := by
    rw [htext]
    refine List.forall_mem_cons.mpr ⟨by decide, List.forall_mem_append.mpr ⟨?_, fun d hd => ?_⟩⟩
    · rcases hmark with hm | ⟨hm, -⟩ <;> rw [hm]
      · exact List.all_eq_true.mp (by decide)
      · exact List.forall_mem_nil _
    · rw [hblank d hd, Bool.true_or]
  obtain ⟨hs, hrest⟩ := List.forall_mem_cons.mp hsegments
  obtain ⟨⟨clause, hclause, hname⟩, hdeclaration⟩ := clause?_statement hchars hs hrest hskip
  rw [← hspace] at hname
  exact ⟨reconcile_of_isMarkup (r := r) hpath hbest (ne_empty_of_segments hsegments hspace) hmarkup,
    ⟨clause, hclause, hname⟩, reconcile_of_clause (r := r) (u := u') hpath hbest hclause hname hdeclaration⟩

theorem reconcile_of_front {front : List Char} (hpath : filePath u = .ok path) (hbest : r.best v path = .ok (.ok c))
    (hspace : c.space ≠ "") (hfront : front ≠ []) (h : IsMarkup (r.parse u.text) (some (width front))) :
    r.reconcile v u = .ok [⟨width front, 0, line c.space⟩] := by
  have hpos : width front ≠ 0 := by
    rw [width_eq]
    exact (Utf8.length_encodeChars_pos hfront).ne'
  rw [reconcile_of_isMarkup hpath hbest hspace h, Option.getD_some, Corrections.insertion, if_neg hpos]
  rfl

/-- Into markup the statement is put where the markup ends, and then it is markup to the end of the text. -/
theorem reconcile_solid {resolver : Resolver} (hpath : filePath u = .ok path)
    (hbest : resolver.best v path = .ok (.ok c)) (hsegments : ∀ t ∈ s :: segments, isIdentifier t = true)
    (hspace : c.space = "\\".intercalate (s :: segments)) (htag : (Php.parse u.text).root.first? [Tree.tagKind] = none)
    (hsolid : ∃ d ∈ unmarked u.text.toList, Lexer.isBlank d = false) :
    let r := ofResolver resolver Php.parse
    ∃ front back, u.text.toList = front ++ back ∧ (∀ d ∈ back, Lexer.isBlank d = true) ∧
      (back = [] ∨ front.getLast? = some '<') ∧
      let text' := String.ofList (front ++ ((line c.space).toList ++ back))
      let u' : SourceUnit := { u with text := text' }
      r.reconcile v u = .ok [⟨width front, 0, line c.space⟩] ∧
        (Php.parse text').root.first? [Tree.tagKind] = none ∧ (Php.parse text').clause? = none ∧
        r.reconcile v u' = .ok [⟨Utf8.size text', 0, line c.space⟩] := by
  intro r
  obtain ⟨mark, htext, hmark⟩ := exists_mark u.text.toList
  have htagless := tagless_of_first? htext hmark htag
  obtain ⟨front, back, hpieces, hmarkup⟩ := exists_isMarkup htext hmark htagless
  have hfront : front ≠ [] := by
    intro hnil
    obtain ⟨d, hd, hdblank⟩ := hsolid
    rw [hpieces.front_eq_nil_iff.mp hnil d hd] at hdblank
    cases hdblank
  rw [if_neg hfront] at hmarkup
  rw [hpieces.split] at hmark htagless
  have hne := ne_empty_of_segments hsegments hspace
  have hline : '<' ∉ (line c.space).toList := hspace ▸ lt_notMem_line hsegments
  have hback : '<' ∉ back := fun h => absurd (hpieces.blank '<' h) (by decide)
  let text' := String.ofList (mark ++ front ++ ((line c.space).toList ++ back))
  have htext' : text'.toList = mark ++ (front ++ ((line c.space).toList ++ back)) := by
    rw [String.toList_ofList, List.append_assoc]
  have hmarkup' : IsMarkup (Php.parse text') (some (width text'.toList)) := by
    refine isMarkup_put hmark htagless hfront (fun h => (List.mem_append.mp h).elim hline hback) ?_ ⟨';', ?_, by decide⟩
      htext'
    · rw [hspace, toList_line]
      nofun
    · rw [hspace, toList_line]
      simp
  have hsize : Utf8.size text' = width text'.toList := by
    rw [← Utf8.length_encode, width_eq]
    rfl
  have hempty : text'.toList ≠ [] := by
    rw [htext']
    exact List.append_ne_nil_of_right_ne_nil _ (List.append_ne_nil_of_left_ne_nil hfront _)
  refine ⟨mark ++ front, back, ?_, hpieces.blank, ?_, ?_, hmarkup'.tag, hmarkup'.clause, ?_⟩
  · rw [htext, List.append_assoc, ← hpieces.split]
  · rw [List.getLast?_append_of_ne_nil _ hfront]
    exact hpieces.full.imp_right fun h => h.resolve_left hfront
  · exact reconcile_of_front hpath hbest hne (List.append_ne_nil_of_right_ne_nil _ hfront) hmarkup
  · rw [hsize]
    exact reconcile_of_front (u := { u with text := text' }) hpath hbest hne hempty hmarkup'

end Reconciler

end Namesake
