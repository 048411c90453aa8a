import Namesake.Proofs.ClauseHeaders

/-! A text gets its first clause. It is put in right behind the first tag, where what the scanner has read does not depend
on what follows, and all that the text declares is found behind it. -/

namespace Namesake.Php

open Lexer Syntax Text

namespace Lexer

/-! ### The first tag -/

/-- In front of the first tag there is no code. -/
theorem outside_of_tokenOf {outer : List Mode} {n : Nat} {c : Char} {cs : List Char} {w : List Char}
    (h : ∀ t ∈ tokenOf (outsideStep (.outside :: outer) c cs) n c w, t.lexeme ≠ .enter) :
    (outsideStep (.outside :: outer) c cs).modes = .outside :: outer := by
  obtain ⟨hmodes, -⟩ | ⟨-, henter⟩ := outsideStep_turn (.outside :: outer) c cs
  · exact hmodes
  · rw [tokenOf, henter] at h
    exact absurd rfl (h _ (List.mem_singleton_self _))

section

variable {rest : List Char} {outer arrival m : List Mode} {n : Nat} {used : List Char} {ts : List Token}

theorem Reads.stays_outside (h : Reads rest arrival m n used ts) (hm : m = .outside :: outer)
    (hts : ∀ t ∈ ts, t.lexeme ≠ .enter) : arrival = .outside :: outer := by
  induction h with
  | nil => exact hm
  | @cons m n c w u ts _ _ ih =>
      subst hm
      obtain ⟨htoken, hts⟩ := List.forall_mem_append.mp hts
      exact ih (outside_of_tokenOf htoken) hts

/-- What the scanner has read up to a tag does not depend on what follows the begin of the tag. -/
theorem Reads.outside_swap {r r' : List Char} (h : Reads ('<' :: '?' :: r) arrival m n used ts) (hm : m = .outside :: outer)
    (hts : ∀ t ∈ ts, t.lexeme ≠ .enter) : Reads ('<' :: '?' :: r') arrival m n used ts := by
  induction h with
  | nil => exact .nil
  | @cons m n c w u ts hmore _ ih =>
      subst hm
      obtain ⟨htoken, hts⟩ := List.forall_mem_append.mp hts
      have hmodes := outside_of_tokenOf htoken
      have hsame : step (.outside :: outer) c (w ++ (u ++ '<' :: '?' :: r')) =
          step (.outside :: outer) c (w ++ (u ++ '<' :: '?' :: r)) := by
        simp only [step, ← List.append_assoc] at hmodes ⊢
        generalize w ++ u = v at hmodes ⊢
        by_cases hc : c = '<'
        · subst hc
          rcases v with _ | ⟨d, v⟩
          · rfl
          · by_cases hd : d = '?'
            · subst hd
              rw [List.cons_append, outsideStep_tag] at hmodes
              exact absurd hmodes (List.cons_ne_self _ _).symm
            · simp [outsideStep, hd]
        · rw [outsideStep_of_ne hc, outsideStep_of_ne hc, run_append_of_halts (by decide), run_append_of_halts (by decide)]
      have hreads := ih hmodes hts
      rw [← hsame] at hmore hreads ⊢
      exact .cons hmore hreads

end

/-- A tag begins with an angle bracket and a question mark. -/
theorem exists_of_enter {m : List Mode} {c : Char} {cs : List Char} (h : (outsideStep m c cs).lexeme = some .enter) :
    c = '<' ∧ ∃ rest, cs = '?' :: rest := by
  by_cases hc : c = '<'
  · subst hc
    cases cs with
    | nil => cases h
    | cons d cs =>
        by_cases hd : d = '?'
        · exact ⟨rfl, cs, by rw [hd]⟩
        · simp [outsideStep, hd] at h
  · rw [outsideStep_of_ne hc] at h
    split at h <;> cases h

/-- A tag is what it was if a line ends right behind it. -/
theorem exists_tagMore (rest : List Char) :
    ∃ k, tagMore rest = k + 1 ∧ ∀ back, tagMore (rest.take k ++ '\n' :: back) = (rest.take k).length + 1 := by
  rw [tagMore]
  split
  · rename_i hequals
    obtain ⟨cs, rfl⟩ := List.head?_eq_some_iff.mp hequals
    exact ⟨1, rfl, fun _ => rfl⟩
  split
  · rename_i hequals hphp
    have hlength : (rest.take 3).length = 3 := by
      rw [← List.length_map Char.toLower, hphp]
      rfl
    refine ⟨3, rfl, fun back => ?_⟩
    have htake : (rest.take 3 ++ '\n' :: back).take 3 = rest.take 3 := List.take_left' hlength
    have hhead : (rest.take 3 ++ '\n' :: back).head? = rest.head? := by
      cases rest with
      | nil => cases hlength
      | cons c cs => rfl
    rw [tagMore, hhead, htake, if_neg hequals, if_pos hphp, hlength]
  · exact ⟨0, rfl, fun back => tagMore_eq_one (c := '\n') (by simp) (by simp) (by decide) (by decide)⟩

end Lexer

/-! ### The clause behind the tag -/

/-- The text begins with `front`, the end of which is the first tag: of the tokens `fs` in front of it and `u` there is more
to say only if another line does not follow. -/
structure Tagged (s : String) (front back : List Char) (fs : List Token) (u : Token) : Prop where
  text : s.toList = front ++ back
  texts : ∀ t ∈ fs, t.lexeme = .text
  enter : u.lexeme = .enter
  stop : u.stop = width front
  tokens : tokens s = fs ++ u :: tokensFrom [.code 0] (width front) back
  /-- The tokens of a text in which a line ends behind the tag. -/
  tokens_line : ∀ s' rest, s'.toList = front ++ '\n' :: rest →
    Php.tokens s' = fs ++ u :: tokensFrom [.code 0] (width front) ('\n' :: rest)

/-- What is no text begins with a tag. -/
theorem exists_tagged {s : String} (h : ∃ t ∈ tokens s, t.lexeme ≠ .text) : ∃ front back fs u, Tagged s front back fs u := by
  obtain ⟨fs, u, ds, hsplit, hfs, hu⟩ := exists_leading h
  obtain ⟨mark, htext, hmark⟩ := exists_mark s.toList
  have htokens := hsplit
  rw [tokens_eq htext hmark] at htokens
  obtain ⟨used, c, back, m, hcs, hreads, hstart, htok, hds⟩ := exists_reads_of_split htokens
  have hfs' : ∀ t ∈ fs, t.lexeme ≠ .enter := fun t ht => by simp [hfs t ht]
  obtain rfl := hreads.stays_outside rfl hfs'
  obtain ⟨hlex', -, hstop⟩ := stop_of_tokenOf htok
  rw [step] at hlex' hstop hds
  obtain ⟨-, htext'⟩ | ⟨hmodes, henter⟩ := outsideStep_turn [.outside, .code 0] c back
  · exact absurd (htext' _ hlex') hu
  obtain ⟨rfl, tail, rfl⟩ := exists_of_enter henter
  obtain ⟨k, hk, hline⟩ := exists_tagMore tail
  rw [outsideStep_tag, hk] at hlex' hstop hds
  rw [List.take_succ_cons, hstart] at hstop
  have hwidth : u.stop = width (mark ++ used ++ '<' :: '?' :: tail.take k) := by
    rw [hstop, width_append, width_append]
  have htokens : tokens s = fs ++ u :: tokensFrom [.code 0] (width (mark ++ used ++ '<' :: '?' :: tail.take k)) (tail.drop k) := by
    rw [hsplit, hds, hwidth]
    rfl
  refine ⟨mark ++ used ++ '<' :: '?' :: tail.take k, tail.drop k, fs, u, ?_, hfs, (Option.some.inj hlex').symm, hwidth, htokens,
    fun s' rest hs' => ?_⟩
  · rw [htext, hcs]
    simp only [List.append_assoc, List.cons_append, List.take_append_drop]
  · have hs'' : s'.toList = mark ++ (used ++ '<' :: '?' :: (tail.take k ++ '\n' :: rest)) := by
      rw [hs']
      simp only [List.append_assoc, List.cons_append]
    have hmark' : IsMark mark (used ++ '<' :: '?' :: (tail.take k ++ '\n' :: rest)) := by
      obtain hmark | ⟨hnil, hhead⟩ := hmark
      · exact .inl hmark
      refine .inr ⟨hnil, ?_⟩
      rw [hcs] at hhead
      cases used with
      | nil => exact hhead
      | cons d used => exact hhead
    have hu : u = ⟨.enter, width mark + width used, width (mark ++ used ++ '<' :: '?' :: tail.take k)⟩ := by
      rw [← hwidth, ← hstart, Option.some.inj hlex']
    rw [tokens_eq hs'' hmark', (hreads.outside_swap rfl hfs').tokens_eq, tokensFrom_step, step, outsideStep_tag, hline, tokenOf,
      Option.map_some, Option.toList_some, hu]
    dsimp only
    rw [List.take_succ_cons, List.drop_succ_cons, List.take_left, List.drop_left, ← width_append, ← width_append]
    rfl

namespace Tagged

variable {s s' : String} {front back : List Char} {fs : List Token} {u : Token} {seg : String} {segments : List String}

/-- The text before the code ends with the tag. -/
theorem leading?_eq (h : Tagged s front back fs u) : (parse s).leading? = some (width front) := by
  rw [leading?_parse h.tokens h.texts (by rw [h.enter]; nofun), h.stop]

theorem width_pos (h : Tagged s front back fs u) : 0 < width front := by
  have ho : Ordered (fs ++ u :: tokensFrom [.code 0] (width front) back) := h.tokens ▸ ordered_tokens s
  have hsolid := ho.solid_of_split
  have hstop := h.stop
  omega

/-- The clause is found, and the first type is declared as it was. -/
theorem finds (h : Tagged s front back fs u) (hsegments : ∀ t ∈ seg :: segments, isIdentifier t = true)
    (hs' : s'.toList = front ++ ('\n' :: ("namespace".toList ++ (spelled seg segments ++ [';', '\n'])) ++ back)) :
    (∃ c, (parse s').clause? = some c ∧ c.name = some ("\\".intercalate (seg :: segments))) ∧
      Redeclares s s' (width front) (width front) := by
  have hline : s'.toList = front ++ '\n' :: ("namespace".toList ++ (spelled seg segments ++ (';' :: '\n' :: back))) := by
    rw [hs']
    simp only [List.append_assoc, List.cons_append, List.nil_append]
  have htokens := h.tokens_line s' _ hline
  rw [tokensFrom_line hsegments, List.append_cons] at htokens
  have hfs : ∀ t ∈ fs ++ [u], t.lexeme = .text ∨ t.lexeme = .enter := by
    intro t ht
    rcases List.mem_append.mp ht with ht | ht
    · exact .inl (h.texts t ht)
    · rw [List.mem_singleton.mp ht]
      exact .inr h.enter
  have hmoves := forall₂_moves [.code 0] (width front) (width front + 10 + width (spelled seg segments) + 2) back
  have hsemi : (Token.mk .semicolon (width front + 10 + width (spelled seg segments))
      (width front + 10 + width (spelled seg segments) + 1)).lexeme = .semicolon := rfl
  obtain ⟨x, l, hx, hsights, hall⟩ := preceded_run hfs (lexeme_namespace (width front + 1))
    (spelt_spelledTokens (width front + 10) seg segments) hsemi hmoves
  rw [← htokens, ← sights] at hsights
  rw [← List.append_cons, ← h.tokens, ← sights] at hall
  refine ⟨⟨clauseAt (parse s') x, ?_, ?_⟩, ?_⟩
  · rw [clause?_parse, hsights, List.singleton_append, List.find?_cons_of_pos (by rw [hx.kind]; decide), Option.map_some]
  · have hs'' : s'.toList = front ++ (['\n'] ++ ("namespace".toList ++ (spelled seg segments ++ (';' :: '\n' :: back)))) := hline
    have hname := textIn_spelledExtent hs''
    rw [(hx.heads s').name, Option.map_some]
    exact congrArg some hname
  · have htext : s.toList = front ++ ([] ++ back) := h.text
    refine redeclares htext hs' (L := preceded _ _) (fun e e' he => .inr ?_) _ hsights (fun y hy => ?_) hall
    · have hwidth : width front + 10 + width (spelled seg segments) + 2 = width front +
          width ('\n' :: ("namespace".toList ++ (spelled seg segments ++ [';', '\n']))) := by
        rw [width_cons, width_append, width_append, show ('\n').utf8Size = 1 from rfl,
          show width "namespace".toList = 9 from rfl, show width [';', '\n'] = 2 from rfl]
        omega
      rw [← hwidth]
      exact he
    · rw [List.mem_singleton.mp hy, hx.kind]

end Tagged

end Namesake.Php
