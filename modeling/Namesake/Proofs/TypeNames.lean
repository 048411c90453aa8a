import Namesake.Proofs.Standing

/-! The name of the first type of a text gives way to an identifier. The type is then found with the new name, and the
first clause is found as it was; if it stands in front of the type, its header is where it was. -/

namespace Namesake.Php

open Lexer Syntax Text

/-- In the text `s` the name `old` of a type, its token `t`, has given way to `new`, of which the token is
`t'`. A tag stands in front of it, and what stands behind it has moved. -/
structure Renames (s s' : String) (as bs bs' : List Token) (t t' : Token) (front old new back : List Char) : Prop where
  text : s.toList = front ++ (old ++ back)
  text' : s'.toList = front ++ (new ++ back)
  tokens : tokens s = as ++ t :: bs
  tokens' : Php.tokens s' = as ++ t' :: bs'
  extent : t.extent = ⟨width front, width front + width old⟩
  extent' : t'.extent = ⟨width front, width front + width new⟩
  names : (Outline.start.through as (t :: bs)).Names t
  isWord : t'.lexeme.isWord
  moves : List.Forall₂ (Token.Moves t.stop t'.stop) bs bs'
  enter : ∃ u ∈ as, u.lexeme = .enter

section

variable {s s' : String} {d : Declaration} {n : NameAt} {name : String} {front old back : List Char}

/-- The name of the first type covers a word, and it can be replaced. -/
theorem exists_renames (hd : (parse s).declaration? = some d) (hn : d.name = some n) (hne : n.text ≠ name)
    (hloose : LooseName s name) (hname : isIdentifier name = true) : ∃ as bs t front old back, s.toList = front ++ (old ++ back) ∧
      n = ⟨width front, String.ofList old⟩ ∧ ∀ s', s'.toList = front ++ (name.toList ++ back) →
        ∃ bs' t', Renames s s' as bs bs' t t' front old name.toList back := by
  obtain ⟨as, t, bs, htokens, hnames, hstart⟩ := exists_type_token hd
  obtain ⟨mark, used, old, back, depth, outer, hword, rfl⟩ := exists_wordIn htokens hnames.1
  have htext : s.toList = mark ++ used ++ (old ++ back) := by rw [hword.text, List.append_assoc]
  have hextent : Token.extent (wordAt (width mark + width used) old) =
      ⟨width (mark ++ used), width (mark ++ used) + width old⟩ := by rw [width_append]; rfl
  have hn' : n = ⟨width (mark ++ used), String.ofList old⟩ := by
    rw [hn, hextent, textIn_mid htext, Option.some.injEq] at hstart
    rw [hstart, width_append]
    rfl
  refine ⟨as, bs, wordAt (width mark + width used) old, mark ++ used, old, back, htext, hn', fun s' hs' => ?_⟩
  have hnew := named_of_isIdentifier hname hword.named.ends
  have hapart : Lexer.Apart used old name.toList := by
    refine .inl fun c hc => hloose d hd n hn hne (mark ++ used) (old ++ back) htext (by rw [hn']) c ?_
    rwa [List.getLast?_append_of_ne_nil _ (List.ne_nil_of_mem (List.mem_of_getLast? hc))]
  have htokens' := hword.tokens_swap hnew (.inl rfl) id (fun _ _ => id) (.inr fun _ _ => id) hapart
    (by rw [hs', List.append_assoc])
  refine ⟨_, _, htext, hs', htokens, htokens', hextent, by rw [width_append]; rfl, hnames, rfl, ?_, ?_⟩
  · rw [hword.behind]
    exact forall₂_moves _ _ _ _
  · exact hword.reads.exists_enter rfl (by simp)

end

namespace Renames

variable {s s' : String} {as bs bs' : List Token} {t t' : Token} {front old new back : List Char}

theorem start_eq (h : Renames s s' as bs bs' t t' front old new back) : t.start = width front :=
  congrArg Extent.start h.extent

theorem start_eq' (h : Renames s s' as bs bs' t t' front old new back) : t'.start = width front :=
  congrArg Extent.start h.extent'

theorem stop_eq (h : Renames s s' as bs bs' t t' front old new back) : t.stop = width front + width old :=
  congrArg Extent.stop h.extent

theorem stop_eq' (h : Renames s s' as bs bs' t t' front old new back) : t'.stop = width front + width new :=
  congrArg Extent.stop h.extent'

theorem ordered (h : Renames s s' as bs bs' t t' front old new back) : Ordered (as ++ t :: bs) :=
  h.tokens ▸ ordered_tokens s

theorem shown (h : Renames s s' as bs bs' t t' front old new back) :
    List.Forall₂ (renamed t t').Shown (sights s) (sights s') := by
  rw [sights, sights, h.tokens, h.tokens']
  exact renamed_run h.ordered h.names h.isWord h.moves

/-- A piece of the text that has not changed says what it said. -/
theorem textIn_eq (h : Renames s s' as bs bs' t t' front old new back) {e e' : Extent}
    (he : e' = e ∧ e.stop ≤ t.start ∨ e.Moves t.stop t'.stop e') : e'.textIn (Utf8.encode s') = e.textIn (Utf8.encode s) := by
  rcases he with ⟨rfl, he⟩ | he
  · exact textIn_front h.text h.text' (h.start_eq ▸ he)
  · rw [h.stop_eq, h.stop_eq'] at he
    exact textIn_back h.text h.text' he

/-- The type is found with the new name. -/
theorem exists_declaration (h : Renames s s' as bs bs' t t' front old new back) {d : Declaration}
    (hd : (parse s).declaration? = some d) (hn : d.name = some ⟨width front, String.ofList old⟩) :
    ∃ d', (parse s').declaration? = some d' ∧ d'.name = some ⟨width front, String.ofList new⟩ := by
  have hrel := rel_declaration? [] rfl (List.forall_mem_nil _) h.shown
  rw [hd] at hrel
  cases hd' : (parse s').declaration? with
  | none => rw [hd'] at hrel; cases hrel
  | some d' =>
      rw [hd'] at hrel
      cases hrel with
      | some he =>
          obtain ⟨e, e', htype, hname, hname'⟩ := he
          refine ⟨d', rfl, ?_⟩
          have hstart : e.start = t.start := by
            rw [hn, Option.some.injEq, NameAt.mk.injEq] at hname
            rw [h.start_eq]
            exact (Int.ofNat.inj hname.1).symm
          have hsolid := h.ordered.solid_of_split
          obtain ⟨rfl, hlt, -⟩ | ⟨-, rfl⟩ | hmoves := htype
          · exact absurd hstart hlt.ne
          · rw [hname', h.extent', textIn_mid h.text']
          · obtain ⟨k, hk, -⟩ := hmoves.start
            omega

/-- The first clause is found as it was. -/
theorem rel_clause (h : Renames s s' as bs bs' t t' front old new back) :
    Option.Rel (fun (c c' : Clause) => (c'.name = c.name ∧ c'.braced = c.braced) ∧
      (c.headerStop ≤ width front → c'.start = c.start ∧ c'.headerStop = c.headerStop))
      (parse s).clause? (parse s').clause? := by
  have hsolid := h.ordered.solid_of_split
  have hrel := rel_clause? h.shown
  generalize (parse s).clause? = x at hrel ⊢
  generalize (parse s').clause? = y at hrel ⊢
  cases hrel with
  | none => exact .none
  | @some c c' hc =>
      obtain ⟨n, e, n', e', hclause, hx, hy⟩ := hc
      refine .some ?_
      rw [hx.name, hy.name, hx.braced, hy.braced, hx.start, hy.start, hx.headerStop, hy.headerStop]
      obtain ⟨rfl, rfl, -, -, hname, -⟩ | ⟨hkey, hname, hstop⟩ := hclause
      · refine ⟨⟨?_, rfl⟩, fun _ => ⟨rfl, rfl⟩⟩
        exact Option.map_congr fun e he => h.textIn_eq (.inl ⟨rfl, hname e he⟩)
      · obtain ⟨kw, nm, j⟩ := n
        obtain ⟨kw', nm', j'⟩ := n'
        refine ⟨⟨?_, ?_⟩, fun hle => ?_⟩
        · cases hname with
          | none => rfl
          | some he => exact congrArg some (h.textIn_eq (.inr he))
        · cases hstop <;> rfl
        · exfalso
          have hle' : Naming.headerStop ⟨kw, nm, j⟩ e ≤ t.start := by
            rw [h.start_eq]
            exact Int.ofNat_le.mp hle
          have hbehind {p p' : Nat} (hp : Php.Moves t.stop t'.stop p p') : t.start < p := by
            obtain ⟨k, hk, -⟩ := hp
            omega
          have hlt : t.start < Naming.headerStop ⟨kw, nm, j⟩ e := by
            cases hstop with
            | some hp => exact hbehind hp
            | none =>
                cases hname with
                | none => exact hbehind hkey.stop
                | some he => exact hbehind he.stop
          omega

/-- The text before the code ends where it ended. -/
theorem leading?_eq (h : Renames s s' as bs bs' t t' front old new back) : (parse s').leading? = (parse s).leading? := by
  obtain ⟨u, hu, hlex⟩ := h.enter
  obtain ⟨fs, v, us, hsplit, hfs, hv⟩ := exists_leading ⟨u, hu, by rw [hlex]; nofun⟩
  have hleading {s : String} {ts : List Token} (hs : Php.tokens s = as ++ ts) : (parse s).leading? = some v.stop := by
    have hsplit' : Php.tokens s = fs ++ v :: (us ++ ts) := by rw [hs, hsplit, List.append_assoc, List.cons_append]
    exact leading?_parse hsplit' hfs hv
  rw [hleading h.tokens', hleading h.tokens]

/-- The header of a clause in front of the name is as plain as it was. -/
theorem plainHeader (h : Renames s s' as bs bs' t t' front old new back) {c c' : Clause} (hp : PlainHeader s c)
    (hlt : c.start < c.headerStop) (hle : c.headerStop ≤ width front) (hstart : c'.start = c.start)
    (hstop : c'.headerStop = c.headerStop) (hbraced : c'.braced = c.braced) (hname : c'.name = c.name) : PlainHeader s' c' := by
  have ho' : Ordered (as ++ t' :: bs') := h.tokens' ▸ ordered_tokens s'
  have hfront : c.start < width front := hlt.trans_le hle
  have hold : c.start < t.start := h.start_eq ▸ hfront
  have hnew : c.start < t'.start := h.start_eq' ▸ hfront
  refine ⟨fun u hu => ?_, fun hb hn => ?_, ?_⟩
  · rw [h.tokens', List.mem_append] at hu
    rw [hstart, hstop]
    intro hgt hstop'
    rcases hu with hu | hu
    · exact hp.plain u (h.tokens ▸ List.mem_append_left _ hu) hgt hstop'
    · have hle' := ho'.start_le u hu
      have hsolid := ho'.solid u (List.mem_append_right _ hu)
      rw [h.start_eq'] at hle'
      omega
  · have hbrace := hp.body (hbraced ▸ hb) (hname ▸ hn)
    rw [h.tokens, h.ordered.filter_behind_of_lt hold] at hbrace
    rw [h.tokens', hstart, ho'.filter_behind_of_lt hnew]
    obtain ⟨w, hw⟩ := Lexeme.exists_of_isWord h.names.1
    obtain ⟨w', hw'⟩ := Lexeme.exists_of_isWord h.isWord
    have hnext : Outline.Succeeds (Outline.nextLexeme (t :: bs)) (Outline.nextLexeme (t' :: bs')) :=
      .inr ⟨w, w', by simp [Outline.nextLexeme, hw, Lexeme.isComment], by simp [Outline.nextLexeme, hw', Lexeme.isComment]⟩
    have hsucc := Outline.succeeds_append hnext (as.filter fun u => c.start < u.start)
    rw [hbrace] at hsucc
    obtain heq | ⟨v, -, hv, -⟩ := hsucc
    · exact heq
    · cases hv
  · have hbalanced := hp.balanced
    rw [h.tokens, h.ordered.filter_before_of_lt hold] at hbalanced
    rw [h.tokens', hstart, ho'.filter_before_of_lt hnew]
    exact hbalanced

end Renames

end Namesake.Php
