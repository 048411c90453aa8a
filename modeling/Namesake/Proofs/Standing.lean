import Namesake.Proofs.Places
import Namesake.Proofs.Turning

/-! Where the first clause and the first type stand in a text, told by its tokens: the clause begins with a token that
begins one, the name of the type is a token that names one, and the text before the code ends with the first tag. What a
piece of a text says depends on the characters of the piece alone. -/

namespace Namesake.Php

open Lexer Syntax Text

variable {s s' : String}

/-! ### Tokens of a text -/

theorem ordered_tokens (s : String) : Ordered (tokens s) := by
  obtain ⟨mark, htext, hmark⟩ := exists_mark s.toList
  rw [tokens_eq htext hmark]
  exact ordered_tokensFrom _ _ _

/-- The tokens of some characters stand as far on as the characters do. -/
theorem Lexer.forall₂_moves (m : List Mode) (b b' : Nat) (cs : List Char) :
    List.Forall₂ (Token.Moves b b') (tokensFrom m b cs) (tokensFrom m b' cs) := by
  rw [← Nat.add_zero b, ← Nat.add_zero b', tokensFrom_shift, tokensFrom_shift, List.forall₂_map_left_iff,
    List.forall₂_map_right_iff, List.forall₂_same]
  exact fun t _ => ⟨rfl, ⟨t.start, rfl, rfl⟩, ⟨t.stop, rfl, rfl⟩⟩

theorem origins_lawful (ts : List Token) : (origins ts).Lawful :=
  ⟨fun h _ => h.keyword, fun h => h.keyword⟩

theorem forall₂_origins (s : String) :
    List.Forall₂ (origins (tokens s)).likeness.Shown (sights s) (sights s) :=
  Trait.forall₂_shown (origins_lawful _) (origins_holds (tokens s)).toAlike

/-- The name of the first type is a token that names a type. -/
theorem exists_type_token {d : Declaration} (h : (parse s).declaration? = some d) : ∃ as t bs,
    tokens s = as ++ t :: bs ∧ (Outline.start.through as (t :: bs)).Names t ∧
      d.name = some ⟨t.start, t.extent.textIn (Utf8.encode s)⟩ := by
  have hrel := rel_declaration? [] rfl (List.forall_mem_nil _) (forall₂_origins s)
  rw [h] at hrel
  cases hrel with
  | some hd =>
      obtain ⟨e, e', ⟨-, as, t, bs, hsplit, rfl, hnames⟩, hname, -⟩ := hd
      exact ⟨as, t, bs, hsplit, hnames, hname⟩

/-- The first clause begins with a token that begins a clause. -/
theorem exists_clause_token {c : Clause} (h : (parse s).clause? = some c) : ∃ as t bs,
    tokens s = as ++ t :: bs ∧ (Outline.start.through as (t :: bs)).Begins t (Outline.nextLexeme bs) ∧
      c.start = t.start := by
  have hrel := rel_clause? (forall₂_origins s)
  rw [h] at hrel
  cases hrel with
  | some hc =>
      obtain ⟨n, e, n', e', ⟨-, -, as, t, bs, hsplit, hkey, hbegins⟩, hheads, -⟩ := hc
      exact ⟨as, t, bs, hsplit, hbegins, by rw [hheads.start, ← hkey]; rfl⟩

/-! ### Text before the code -/

/-- The text before the code ends with the first token that is no text. -/
theorem leading?_parse {fs ts : List Token} {t : Token} (h : tokens s = fs ++ t :: ts) (hfs : ∀ u ∈ fs, u.lexeme = .text)
    (ht : t.lexeme ≠ .text) : (parse s).leading? = some t.stop := by
  have htake : (fs ++ t :: ts).takeWhile (fun u => u.lexeme == .text) = fs := by
    rw [List.takeWhile_append_of_pos fun u hu => beq_iff_eq.mpr (hfs u hu), List.takeWhile_cons_of_neg (by simpa using ht),
      List.append_nil]
  have hnext : (fs ++ t :: ts)[fs.length]? = some t := by
    rw [List.getElem?_append_right (Nat.le_refl _), Nat.sub_self]
    rfl
  have htext : Tree.textKind ≠ Tree.tagKind := by decide
  unfold Tree.leading? parse
  dsimp only
  rw [h, front, htake, hnext, Syntax.Node.children]
  cases fs with
  | nil => rfl
  | cons u us =>
      rw [List.head?_cons, List.getLast?_cons]
      simp only [List.cons_append, List.nil_append, Tree.leadingStop, Syntax.Node.kind, if_neg htext, if_true]
      rfl

/-- In front of code there is a tag. -/
theorem Lexer.Reads.exists_enter {rest : List Char} {arrival m : List Mode} {n : Nat} {used : List Char} {ts : List Token}
    (h : Reads rest arrival m n used ts) {outer : List Mode} (hm : m = .outside :: outer)
    (ha : arrival.head? ≠ some .outside) : ∃ t ∈ ts, t.lexeme = .enter := by
  induction h with
  | nil =>
      rw [hm] at ha
      exact absurd rfl ha
  | @cons m n c w u ts _ _ ih =>
      subst hm
      rcases outsideStep_turn (.outside :: outer) c (w ++ (u ++ rest)) with ⟨hmodes, -⟩ | ⟨-, henter⟩
      · obtain ⟨t, ht, hlex⟩ := ih hmodes
        exact ⟨t, List.mem_append_right _ ht, hlex⟩
      · refine ⟨⟨.enter, n, n + width (c :: w.take (step (.outside :: outer) c (w ++ (u ++ rest))).more)⟩,
          List.mem_append_left _ ?_, rfl⟩
        rw [tokenOf, step, henter]
        exact List.mem_singleton_self _

/-- A list with a token that is no text begins with text and one that is none. -/
theorem exists_leading {ts : List Token} (h : ∃ t ∈ ts, t.lexeme ≠ .text) :
    ∃ fs t bs, ts = fs ++ t :: bs ∧ (∀ u ∈ fs, u.lexeme = .text) ∧ t.lexeme ≠ .text := by
  induction ts with
  | nil =>
      obtain ⟨_, ht, -⟩ := h
      cases ht
  | cons u us ih =>
      by_cases hu : u.lexeme = .text
      · obtain ⟨t, ht, hlex⟩ := h
        rcases List.mem_cons.mp ht with rfl | ht
        · exact absurd hu hlex
        · obtain ⟨fs, t', bs, rfl, hfs, hlex'⟩ := ih ⟨t, ht, hlex⟩
          exact ⟨u :: fs, t', bs, rfl, List.forall_mem_cons.mpr ⟨hu, hfs⟩, hlex'⟩
      · exact ⟨[], u, us, rfl, List.forall_mem_nil _, hu⟩

/-! ### Pieces of a text -/

section

variable {front old new back : List Char} (hs : s.toList = front ++ (old ++ back)) (hs' : s'.toList = front ++ (new ++ back))

include hs hs'

/-- A piece in front of what has changed says what it said. -/
theorem textIn_front {e : Extent} (he : e.stop ≤ width front) : e.textIn (Utf8.encode s') = e.textIn (Utf8.encode s) := by
  rw [width_eq] at he
  simp only [Extent.textIn, Tree.slice, Utf8.encode, hs, hs', Utf8.encodeChars_append]
  rw [List.take_append_of_le_length he, List.take_append_of_le_length he]

/-- A piece behind what has changed says what it said. -/
theorem textIn_back {e e' : Extent} (he : e.Moves (width front + width old) (width front + width new) e') :
    e'.textIn (Utf8.encode s') = e.textIn (Utf8.encode s) := by
  obtain ⟨⟨i, hi, hi'⟩, ⟨j, hj, hj'⟩⟩ := he
  have hslice (mid : List Char) {a b : Nat} (ha : a = width front + width mid + i) (hb : b = width front + width mid + j) :
      ((Utf8.encodeChars (front ++ (mid ++ back))).take b).drop a = ((Utf8.encodeChars back).take j).drop i := by
    rw [← width_append, width_eq] at ha hb
    rw [← List.append_assoc, Utf8.encodeChars_append, ha, hb, List.take_length_add_append, List.drop_length_add_append]
  simp only [Extent.textIn, Tree.slice, Utf8.encode, hs, hs']
  rw [hslice old hi hj, hslice new hi' hj']

end

/-- What stands in a text between two other pieces. -/
theorem textIn_mid {front mid back : List Char} (hs : s.toList = front ++ (mid ++ back)) :
    Extent.textIn (Utf8.encode s) ⟨width front, width front + width mid⟩ = String.ofList mid := by
  have hstop : width front + width mid = (Utf8.encodeChars (front ++ mid)).length := by rw [← width_append, width_eq]
  have hslice : ((Utf8.encode s).take (width front + width mid)).drop (width front) = Utf8.encodeChars mid := by
    calc ((Utf8.encode s).take (width front + width mid)).drop (width front)
        = (Utf8.encodeChars (front ++ mid)).drop (width front) := by
          rw [Utf8.encode, hs, ← List.append_assoc, Utf8.encodeChars_append _ back, hstop, List.take_left]
      _ = Utf8.encodeChars mid := by rw [Utf8.encodeChars_append, width_eq, List.drop_left]
  simp only [Extent.textIn, Tree.slice, hslice, Utf8.decodeLossy_encodeChars]

/-! ### Texts in which clause and type can be replaced -/

/-- If the name of the first type is another one, it does not grow together with what stands right in front of it. -/
def LooseName (s name : String) : Prop :=
  ∀ d ∈ (parse s).declaration?, ∀ n ∈ d.name, n.text ≠ name → ∀ front back, s.toList = front ++ back →
    (width front : Int) = n.start → ∀ c ∈ front.getLast?, isTight c = false

/-- The header of a clause is plain. -/
structure PlainHeader (s : String) (c : Clause) : Prop where
  /-- There are words, separators, semicolons and comments behind the keyword, and nothing else. -/
  plain : ∀ t ∈ tokens s, c.start < t.start → t.stop ≤ c.headerStop → t.lexeme.inHeader
  /-- The body of a clause without a name follows the keyword. -/
  body : c.braced → c.name = none →
    Outline.nextLexeme ((tokens s).filter fun t => c.start < t.start) = some (.opening .brace)
  /-- The clause does not stand in code that is put into a string. -/
  balanced : begunInsertions ((tokens s).filter fun t => t.start < c.start) =
    endedInsertions ((tokens s).filter fun t => t.start < c.start)

/-- If the first clause names another namespace, its header is plain. -/
def HasPlainHeader (s space : String) : Prop :=
  ∀ c ∈ (parse s).clause?, space ≠ "" → c.name ≠ some space → PlainHeader s c

/-- The header of a clause consists of the keyword `key` and the tokens `ms`; `as` stand before it and `cs` behind it. -/
structure HeaderTokens (s : String) (c : Clause) (as : List Token) (key : Token) (ms cs : List Token) : Prop where
  tokens : tokens s = as ++ key :: (ms ++ cs)
  begins : (Outline.start.through as (key :: (ms ++ cs))).Begins key (Outline.nextLexeme (ms ++ cs))
  start : c.start = key.start
  headerStop : c.headerStop = lastStop key.stop ms

/-- What the first clause covers is a node. -/
theorem exists_clauseAt {c : Clause} (h : (parse s).clause? = some c) :
    ∃ x ∈ sights s, x.kind = Tree.clauseKind ∧ c = clauseAt (parse s) x := by
  rw [clause?_parse, Option.map_eq_some_iff] at h
  obtain ⟨x, hx, rfl⟩ := h
  exact ⟨x, List.mem_of_find?_eq_some hx, by simpa using List.find?_some hx, rfl⟩

/-- The header of the first clause consists of tokens. -/
theorem exists_headerTokens {c : Clause} (h : (parse s).clause? = some c) : ∃ as key ms cs, HeaderTokens s c as key ms cs := by
  obtain ⟨as, t, bs, htokens, hbegins, hstart⟩ := exists_clause_token h
  obtain ⟨x, hx, hkind, rfl⟩ := exists_clauseAt h
  rw [sights, htokens] at hx
  have ho : Ordered (as ++ t :: bs) := htokens ▸ ordered_tokens s
  obtain ⟨ms, cs, rfl, hstop⟩ := exists_header ho hbegins hx ⟨hkind, Int.ofNat.inj hstart, rfl, rfl⟩
  exact ⟨as, t, ms, cs, htokens, hbegins, hstart, congrArg Nat.cast hstop⟩

theorem Ordered.filter_before {as bs : List Token} {t : Token} (h : Ordered (as ++ t :: bs)) :
    (as ++ t :: bs).filter (fun u => (u.start : Int) < t.start) = as := by
  have hbefore : as.filter (fun u => (u.start : Int) < t.start) = as := by
    refine List.filter_eq_self.mpr fun u hu => ?_
    have hsolid := h.solid u (List.mem_append_left _ hu)
    have hstop := h.before hu
    simp only [decide_eq_true_eq]
    omega
  have hbehind : (t :: bs).filter (fun u => (u.start : Int) < t.start) = [] := by
    refine List.filter_eq_nil_iff.mpr fun u hu => ?_
    simp only [decide_eq_true_eq]
    rcases List.mem_cons.mp hu with rfl | hu
    · exact lt_irrefl _
    · have hsolid := h.solid_of_split
      have hstop := h.after hu
      omega
  rw [List.filter_append, hbefore, hbehind, List.append_nil]

theorem Ordered.filter_behind {as bs : List Token} {t : Token} (h : Ordered (as ++ t :: bs)) :
    (as ++ t :: bs).filter (fun u => (t.start : Int) < u.start) = bs := by
  have hbefore : (as ++ [t]).filter (fun u => (t.start : Int) < u.start) = [] := by
    refine List.filter_eq_nil_iff.mpr fun u hu => ?_
    simp only [decide_eq_true_eq]
    rcases List.mem_append.mp hu with hu | hu
    · have hsolid := h.solid u (List.mem_append_left _ hu)
      have hstop := h.before hu
      omega
    · rw [List.mem_singleton.mp hu]
      exact lt_irrefl _
  have hbehind : bs.filter (fun u => (t.start : Int) < u.start) = bs := by
    refine List.filter_eq_self.mpr fun u hu => ?_
    have hsolid := h.solid_of_split
    have hstop := h.after hu
    simp only [decide_eq_true_eq]
    omega
  rw [List.append_cons, List.filter_append, hbefore, hbehind, List.nil_append]

/-- From a token on all tokens begin behind what is in front of it. -/
theorem Ordered.start_le {as bs : List Token} {t : Token} (h : Ordered (as ++ t :: bs)) : ∀ u ∈ t :: bs, t.start ≤ u.start := by
  intro u hu
  rcases List.mem_cons.mp hu with rfl | hu
  · exact Nat.le_refl _
  · exact h.solid_of_split.le.trans (h.after hu)

theorem Ordered.filter_before_of_lt {as bs : List Token} {t : Token} (h : Ordered (as ++ t :: bs)) {p : Int} (hp : p < t.start) :
    (as ++ t :: bs).filter (fun u => u.start < p) = as.filter fun u => u.start < p := by
  have hbehind : (t :: bs).filter (fun u => u.start < p) = [] := by
    refine List.filter_eq_nil_iff.mpr fun u hu => ?_
    have hle := h.start_le u hu
    simp only [decide_eq_true_eq]
    omega
  rw [List.filter_append, hbehind, List.append_nil]

theorem Ordered.filter_behind_of_lt {as bs : List Token} {t : Token} (h : Ordered (as ++ t :: bs)) {p : Int} (hp : p < t.start) :
    (as ++ t :: bs).filter (fun u => p < u.start) = (as.filter fun u => p < u.start) ++ t :: bs := by
  have hbehind : (t :: bs).filter (fun u => p < u.start) = t :: bs := by
    refine List.filter_eq_self.mpr fun u hu => ?_
    have hle := h.start_le u hu
    simp only [decide_eq_true_eq]
    omega
  rw [List.filter_append, hbehind]

namespace HeaderTokens

variable {c : Clause} {as ms cs : List Token} {key : Token}

theorem ordered (h : HeaderTokens s c as key ms cs) : Ordered (as ++ key :: (ms ++ cs)) :=
  h.tokens ▸ ordered_tokens s

theorem start_lt_headerStop (h : HeaderTokens s c as key ms cs) : c.start < c.headerStop := by
  obtain ⟨-, -, hkey, -, -, hlast⟩ := h.ordered.behind
  rw [h.start, h.headerStop, Int.ofNat_lt]
  exact hkey.trans_le hlast

theorem inHeader (h : HeaderTokens s c as key ms cs) (hp : PlainHeader s c) : ∀ t ∈ ms, t.lexeme.inHeader := by
  intro t ht
  obtain ⟨hms, -, hkey, hfirst, -, -⟩ := h.ordered.behind
  refine hp.plain t ?_ ?_ ?_
  · rw [h.tokens]
    exact List.mem_append_right _ (List.mem_cons_of_mem _ (List.mem_append_left _ ht))
  · rw [h.start, Int.ofNat_lt]
    exact hkey.trans_le (hfirst t ht)
  · rw [h.headerStop, Int.ofNat_le]
    exact hms.le_lastStop key.stop t ht

theorem body (h : HeaderTokens s c as key ms cs) (hp : PlainHeader s c) (hbraced : c.braced) (hname : c.name = none) :
    Outline.nextLexeme (ms ++ cs) = some (.opening .brace) := by
  have hbody := hp.body hbraced hname
  rwa [h.tokens, h.start, h.ordered.filter_behind] at hbody

theorem balanced (h : HeaderTokens s c as key ms cs) (hp : PlainHeader s c) : begunInsertions as = endedInsertions as := by
  have hbalanced := hp.balanced
  rwa [h.tokens, h.start, h.ordered.filter_before] at hbalanced

end HeaderTokens

end Namesake.Php
