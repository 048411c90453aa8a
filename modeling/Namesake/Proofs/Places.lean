import Namesake.Proofs.Depth
import Namesake.Proofs.HeaderEnds
import Namesake.Proofs.Markup
import Namesake.Proofs.Swapping

/-! Where a word stands in a text. In front of it the scanner has read some characters and arrived in code; the word covers
as many characters as may be part of a name; and the rest is read from behind it. If another word is put there, the
tokens in front are the same, and those behind it stand as far on as the text has grown. -/

namespace Namesake.Php

namespace Lexer

/-! ### Steps that give the tokens of a header -/

/-- What a step at `c` has read, with `k` characters after it, that gives a token of a header. -/
inductive HeaderTurn (c : Char) (cs : List Char) (k : Nat) : Lexeme → Prop
  | word {w : String} (hc : isNameStart c) (hk : k = run isNamePart cs) : HeaderTurn c cs k (.word w)
  | semicolon (hc : c = ';') (hk : k = 0) : HeaderTurn c cs k .semicolon
  | separator (hc : c = '\\') (hk : k = 0) : HeaderTurn c cs k .separator
  /-- A comment that ends with a backslash ends with its line. -/
  | comment {broken : Bool} (hend : (c :: cs.take k).getLast? = some '\\' → ∀ x ∈ (cs.drop k).head?, x ∈ ['\n', '\r', '?']) :
      HeaderTurn c cs k (.comment broken)

/-- If the step gives a token of a header the scanner stays in code. -/
def ReadsHeader (depth : Nat) (outer : List Mode) (c : Char) (cs : List Char) (s : Step) : Prop :=
  ∀ l, s.lexeme = some l → l.inHeader → s.modes = .code depth :: outer ∧ HeaderTurn c cs s.more l

section

variable {depth : Nat} {outer : List Mode} {c : Char} {cs : List Char}

theorem ReadsHeader.of_not {s : Step} {k : Lexeme} (hs : s.lexeme = some k) (hk : k.inHeader = false) :
    ReadsHeader depth outer c cs s := by
  intro l hl hheader
  rw [hs, Option.some.injEq] at hl
  rw [← hl, hk] at hheader
  cases hheader

theorem ReadsHeader.of_turn {k : Lexeme} {n : Nat} (h : HeaderTurn c cs n k) :
    ReadsHeader depth outer c cs ⟨some k, n, .code depth :: outer⟩ := by
  intro l hl _
  obtain rfl := Option.some.inj hl
  exact ⟨rfl, h⟩

theorem HeaderTurn.of_ne {k : Nat} {x : Char} {broken : Bool} (h : (c :: cs.take k).getLast? = some x) (hx : x ≠ '\\') :
    HeaderTurn c cs k (.comment broken) := by
  refine .comment fun hlast => ?_
  rw [h, Option.some.injEq] at hlast
  exact absurd hlast hx

/-- A comment that goes on to the end of its line, of which `front` has been read. -/
theorem headerTurn_line (front rest : List Char) (broken : Bool) :
    HeaderTurn c (front ++ rest) (lineComment front.length rest).1 (.comment broken) := by
  obtain ⟨k, hk, hend⟩ := lineComment_end front.length rest
  refine .comment ?_
  rw [hk, List.take_append, List.drop_append, List.take_of_length_le (by omega), List.drop_of_length_le (by omega),
    Nat.add_sub_cancel_left, List.nil_append, ← List.cons_append]
  intro hlast
  refine hend.resolve_right fun hbreak => ?_
  have hne : rest.take k ≠ [] := by
    intro hnil
    rw [hnil] at hbreak
    cases hbreak
  rw [List.getLast?_append_of_ne_nil _ hne, hbreak, Option.some.injEq] at hlast
  exact absurd hlast (by decide)

theorem signStep_header : ReadsHeader depth outer c cs (signStep depth outer c cs) := by
  fun_cases signStep depth outer c cs
  case case4 hclosed =>
    rw [if_pos hclosed]
    exact .of_not rfl rfl
  case case5 hopen =>
    rw [if_neg hopen]
    exact .of_not rfl rfl
  case case6 hclosed =>
    rw [if_pos hclosed]
    exact .of_not rfl rfl
  case case7 hopen =>
    rw [if_neg hopen]
    exact .of_not rfl rfl
  case case12 => exact .of_turn (.of_ne (x := '#') rfl (by decide))
  case case13 => exact .of_turn (headerTurn_line [] cs _)
  case case14 rest => exact .of_turn (headerTurn_line ['/'] rest _)
  case case15 rest k hk =>
    obtain ⟨n, rfl, hlast⟩ := blockComment_end hk
    refine .of_turn (.of_ne (x := '/') ?_ (by decide))
    rw [Nat.add_comm, List.take_succ_cons, List.getLast?_cons, List.getLast?_cons, hlast]
    rfl
  case case20 => exact .of_turn (.semicolon rfl rfl)
  case case21 => exact .of_turn (.separator rfl rfl)
  case case29 => split <;> exact .of_not rfl rfl
  all_goals exact .of_not rfl rfl

theorem codeStep_header : ReadsHeader depth outer c cs (codeStep depth outer c cs) := by
  unfold codeStep
  split
  · exact fun l hl => nomatch hl
  split
  · rename_i hc
    exact .of_turn (.word hc rfl)
  split
  · exact .of_not rfl rfl
  · exact signStep_header

end

theorem not_skipped_of_isNameStart {c : Char} (h : isNameStart c) : (isBlank c || isGap c) = false := by
  rcases Bool.or_eq_true_iff.mp (show ((c == '_' || c.isAlpha) || ('\u0080' ≤ c && !isGap c)) = true from h) with h | h
  · exact not_skipped_of_letter h
  · obtain ⟨hbeyond, hgap⟩ := Bool.and_eq_true_iff.mp h
    rw [Bool.not_eq_true'] at hgap
    have hcode : 128 ≤ c.toNat := of_decide_eq_true hbeyond
    rw [hgap, Bool.or_false, ← Bool.not_eq_true, isBlank, Bool.or_eq_true, Bool.and_eq_true]
    rintro (hspace | ⟨-, hle⟩)
    · rw [beq_iff_eq.mp hspace] at hcode
      exact absurd hcode (by decide)
    · have hlast : c.toNat ≤ 13 := of_decide_eq_true hle
      omega

theorem Named.tokensFrom_eq {name back : List Char} (h : Named name back) (depth : Nat) (outer : List Mode) (n : Nat) :
    tokensFrom (.code depth :: outer) n (name ++ back) =
      wordAt n name :: tokensFrom (.code depth :: outer) (n + width name) back := by
  obtain ⟨c, cs, rfl, hc⟩ := h.exists_cons
  refine tokensFrom_code_word hc (not_skipped_of_isNameStart hc) (fun d hd => h.part d (List.mem_cons_of_mem c hd)) ?_
  cases back with
  | nil => rfl
  | cons b back => exact h.ends b rfl

theorem named_takeWhile {c : Char} (hc : isNameStart c) (cs : List Char) :
    Named (c :: cs.takeWhile isNamePart) (cs.dropWhile isNamePart) where
  ne_nil := List.cons_ne_nil _ _
  start x hx := by
    obtain rfl := Option.some.inj hx
    exact hc
  part x hx := by
    rcases List.mem_cons.mp hx with rfl | hx
    · exact isNamePart_of_isNameStart hc
    · exact List.mem_takeWhile_imp hx
  ends x hx := by
    have hhead := List.head?_dropWhile_not isNamePart cs
    rw [Option.mem_def.mp hx] at hhead
    simpa using hhead

/-- An identifier is a name, unless what follows it goes on with it. -/
theorem named_of_isIdentifier {name : String} {back : List Char} (h : isIdentifier name = true)
    (hback : ∀ c ∈ back.head?, isNamePart c = false) : Named name.toList back := by
  rw [isIdentifier] at h
  split at h
  · cases h
  · rename_i c cs hchars
    rw [Bool.and_eq_true, List.all_eq_true] at h
    rw [hchars]
    refine ⟨List.cons_ne_nil _ _, fun x hx => ?_, fun x hx => ?_, hback⟩
    · obtain rfl := Option.some.inj hx
      exact isNameStart_of_letter h.1
    · rcases List.mem_cons.mp hx with rfl | hx
      · exact isNamePart_of_isNameStart (isNameStart_of_letter h.1)
      · exact isNamePart_of_alphanum (h.2 x hx)

/-- A token that may stand in a header but for the words outside of it is read in code. -/
theorem code_of_inHeader {m : List Mode} (hm : Grounded m) {c : Char} {cs : List Char} {l : Lexeme}
    (h : (step m c cs).lexeme = some l) (hl : l.inHeader) : ∃ depth outer, m = .code depth :: outer := by
  have hstring {On Ends : Prop} {m : List Mode} (ht : StringTurn On Ends m c cs (step m c cs))
      (h : (step m c cs).lexeme = some l) : False := by
    cases ht with
    | goesOn _ hnone _ => rw [hnone] at h; cases h
    | ends _ hnone _ => rw [hnone] at h; cases h
    | inserts _ hopen _ =>
        rw [hopen, Option.some.injEq] at h
        rw [← h] at hl
        cases hl
  cases m with
  | nil =>
      obtain ⟨_, hx, -⟩ := hm
      cases hx
  | cons x m =>
      cases x with
      | code d => exact ⟨d, m, rfl⟩
      | quoted q => exact (hstring (quotedStep_turn q _ c cs) h).elim
      | document label => exact (hstring (documentStep_turn label _ c cs) h).elim
      | outside =>
          rcases outsideStep_turn (.outside :: m) c cs with ⟨-, htext⟩ | ⟨-, henter⟩
          · rw [htext l h] at hl
            cases hl
          · rw [step, henter, Option.some.injEq] at h
            rw [← h] at hl
            cases hl

end Lexer

open Lexer

/-! ### A word in a text -/

/-- In a text, with the tokens `as` in front and `bs` behind, stands the word `name`: it is read in code after a byte order
mark, if there is one, and the characters `used`, and `back` follows it. -/
structure WordIn (s : String) (as bs : List Token) (mark used name back : List Char) (depth : Nat) (outer : List Mode) :
    Prop where
  text : s.toList = mark ++ (used ++ (name ++ back))
  marked : IsMark mark (used ++ (name ++ back))
  named : Named name back
  reads : Reads (name ++ back) (.code depth :: outer) [.outside, .code 0] (width mark) used as
  behind : bs = tokensFrom (.code depth :: outer) (width mark + width used + width name) back

theorem grounded_start : Grounded [.outside, .code 0] :=
  (grounded_code 0 [] (.inl rfl)).cons _

theorem labelled_start : Labelled [.outside, .code 0] := by
  intro label hlabel
  simp at hlabel

variable {s s' : String} {as bs : List Token} {t : Token}

/-- Every word of a text stands somewhere. -/
theorem exists_wordIn (h : tokens s = as ++ t :: bs) (ht : t.lexeme.isWord) : ∃ mark used name back depth outer,
    WordIn s as bs mark used name back depth outer ∧ t = wordAt (width mark + width used) name := by
  obtain ⟨mark, htext, hmark⟩ := exists_mark s.toList
  rw [tokens_eq htext hmark] at h
  obtain ⟨used, c, back, m, hcs, hreads, hstart, htok, hbs⟩ := exists_reads_of_split h
  obtain ⟨hlex, -, hstop⟩ := stop_of_tokenOf htok
  have hheader : t.lexeme.inHeader := by
    obtain ⟨w, hw⟩ := Lexeme.exists_of_isWord ht
    rw [hw]
    rfl
  obtain ⟨depth, outer, rfl⟩ := code_of_inHeader (hreads.grounded grounded_start) hlex hheader
  obtain ⟨-, hturn⟩ := codeStep_header t.lexeme hlex hheader
  have hc : isNameStart c := by
    cases hlexeme : t.lexeme with
    | word w =>
        rw [hlexeme] at hturn
        cases hturn with
        | word hc _ => exact hc
    | _ => rw [hlexeme] at ht; cases ht
  have hsplit : c :: back = (c :: back.takeWhile isNamePart) ++ back.dropWhile isNamePart := by
    rw [List.cons_append, List.takeWhile_append_dropWhile]
  have hnamed := named_takeWhile hc back
  have htokens : t :: bs = tokensFrom (.code depth :: outer) t.start (c :: back) := by
    rw [tokensFrom_step, htok, ← hstop, hbs]
    rfl
  rw [hsplit, hnamed.tokensFrom_eq, hstart, List.cons.injEq] at htokens
  rw [hsplit] at hcs hreads
  exact ⟨mark, used, _, _, depth, outer, ⟨by rw [htext, hcs], by rw [← hcs]; exact hmark, hnamed, hreads, htokens.2⟩, htokens.1⟩

namespace WordIn

variable {mark used name back new back' : List Char} {depth : Nat} {outer : List Mode}

/-- With another word in its place and other characters behind it. -/
theorem marked_swap (h : WordIn s as bs mark used name back depth outer) (hn : Named new back') :
    IsMark mark (used ++ (new ++ back')) := by
  refine h.marked.imp_right fun ⟨hnil, hhead⟩ => ⟨hnil, ?_⟩
  by_cases hused : used = []
  · obtain ⟨c, cs, rfl, hc⟩ := hn.exists_cons
    rw [hused, List.nil_append, List.cons_append, List.head?_cons, ne_eq, Option.some.injEq]
    rintro rfl
    exact absurd hc (by decide)
  · rw [List.head?_append_of_ne_nil _ hused] at hhead ⊢
    exact hhead

/-- If another word is put there, the tokens in front are the same. -/
theorem tokens_swap (h : WordIn s as bs mark used name back depth outer) (hn : Named new back') (hf : Follows back back')
    (hblock : ¬ ['*', '/'] <:+: back → ¬ ['*', '/'] <:+: back')
    (hclosed : ∀ q ∈ ['"', '\x60'], isClosed q back = false → isClosed q back' = false)
    (hopen : outer = [] ∨ ∀ q ∈ ['"', '\x60'], isClosed q back → isClosed q back') (ha : Lexer.Apart used name new)
    (hs' : s'.toList = mark ++ (used ++ (new ++ back'))) : tokens s' = as ++ wordAt (width mark + width used) new ::
      tokensFrom (.code depth :: outer) (width mark + width used + width new) back' := by
  have hreads := h.reads.swap h.named hn hf hblock hclosed hopen labelled_start ha
  rw [tokens_eq hs' (h.marked_swap hn), hreads.tokens_eq, hn.tokensFrom_eq]

end WordIn

end Namesake.Php
