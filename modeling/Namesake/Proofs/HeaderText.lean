import Namesake.Proofs.Standing

/-! The characters of the header of a clause. They can be told from those that follow, and where they end nothing is cut in
two: a quote that is looked for from the header on is found in the rest as well. The same holds of a header that is
written anew. -/

namespace Namesake.Php

open Lexer Syntax Text

namespace Lexer

/-! ### Quotes and end marks -/

/-- A quote that does not come from some characters on does not come from behind them on, unless they end in an escape. -/
theorem isClosed_of_append {q : Char} {u r : List Char} (hend : u.getLast? = some '\\' → ∀ x ∈ r.head?, x ≠ q ∧ x ≠ '\\')
    (h : isClosed q (u ++ r) = false) : isClosed q r = false := by
  induction hlen : u.length using Nat.strong_induction_on generalizing u with
  | _ len ih =>
      rcases u with _ | ⟨c, u⟩
      · exact h
      rw [List.length_cons] at hlen
      by_cases hc : c = '\\'
      · subst hc
        rcases u with _ | ⟨d, u⟩
        · rcases r with _ | ⟨x, r⟩
          · rfl
          · obtain ⟨hxq, hx⟩ := hend rfl x rfl
            rw [isClosed_cons hx, beq_false_of_ne hxq, Bool.false_or]
            exact h
        · rw [List.length_cons] at hlen
          rcases u with _ | ⟨e, u⟩
          · exact h
          · exact ih _ (by omega) (u := e :: u) (fun hlast => hend (by rwa [List.getLast?_cons_cons, List.getLast?_cons_cons])) h
              rfl
      · rw [List.cons_append, isClosed_cons hc, Bool.or_eq_false_iff] at h
        refine ih _ (by omega) (fun hlast => hend ?_) h.2 rfl
        rw [List.getLast?_cons, hlast]
        rfl

theorem infix_of_append {α : Type} {x y : α} {u r : List α} (hu : x ∉ u) (h : [x, y] <:+: u ++ r) : [x, y] <:+: r := by
  induction u with
  | nil => exact h
  | cons a u ih =>
      rw [List.cons_append, List.infix_cons_iff, List.cons_prefix_cons] at h
      rcases h with ⟨rfl, -⟩ | h
      · exact absurd List.mem_cons_self hu
      · exact ih (fun hx => hu (List.mem_cons_of_mem a hx)) h

/-! ### The end of a header -/

/-- In code the scanner passes over nothing but blanks. -/
theorem codeStep_blank {depth : Nat} {outer : List Mode} {c : Char} {cs : List Char}
    (h : (codeStep depth outer c cs).lexeme = none) : (codeStep depth outer c cs).modes = .code depth :: outer := by
  unfold codeStep at h ⊢
  split
  · rfl
  · rename_i hskip
    rw [if_neg hskip] at h
    split at h
    · cases h
    split at h
    · cases h
    · exfalso
      revert h
      fun_cases signStep depth outer c cs <;> try split
      all_goals
        intro h
        cases h

theorem Reads.stays {rest : List Char} {depth : Nat} {outer arrival m : List Mode} {n : Nat} {used : List Char}
    {ts : List Token} (h : Reads rest arrival m n used ts) (hts : ts = []) (hm : m = .code depth :: outer) :
    arrival = .code depth :: outer := by
  induction h with
  | nil => exact hm
  | @cons m n c w u ts _ _ ih =>
      subst hm
      obtain ⟨htoken, hts⟩ := List.append_eq_nil_iff.mp hts
      refine ih hts (codeStep_blank ?_)
      rw [tokenOf] at htoken
      cases hl : (codeStep depth outer c (w ++ (u ++ rest))).lexeme with
      | none => rfl
      | some l =>
          rw [step, hl] at htoken
          cases htoken

/-- Behind a token of a header no string begins and nothing is escaped, unless the token is a separator. -/
theorem HeaderTurn.quiet {c : Char} {cs : List Char} {k : Nat} {l : Lexeme} (h : HeaderTurn c cs k l) (hl : l ≠ .separator)
    (hlast : (c :: cs.take k).getLast? = some '\\') : ∀ x ∈ (cs.drop k).head?, x ∉ ['"', '\x60', '\\'] := by
  cases h with
  | word hc hk =>
      subst hk
      rw [take_run] at hlast
      have hpart := (named_takeWhile hc cs).part _ (List.mem_of_getLast? hlast)
      exact absurd hpart (by decide)
  | semicolon hc hk =>
      subst hc hk
      rw [List.take_zero] at hlast
      exact absurd hlast (by decide)
  | separator => exact absurd rfl hl
  | comment hend =>
      intro x hx
      have hmem := hend hlast x hx
      simp only [List.mem_cons, List.not_mem_nil, or_false] at hmem
      rcases hmem with rfl | rfl | rfl <;> decide

/-- The tokens of a header cover its characters `front`, and it ends with the last of them. -/
theorem exists_header_text {depth : Nat} {outer : List Mode} {n : Nat} {tail : List Char} {ms cs : List Token}
    (h : tokensFrom (.code depth :: outer) n tail = ms ++ cs) (hms : ∀ t ∈ ms, t.lexeme.inHeader) :
    ∃ front rest, tail = front ++ rest ∧ lastStop n ms = n + width front ∧
      cs = tokensFrom (.code depth :: outer) (n + width front) rest ∧ (ms = [] → front = []) ∧
      ∀ t ∈ ms.getLast?, ∃ u c back k, front = u ++ c :: back.take k ∧ rest = back.drop k ∧ HeaderTurn c back k t.lexeme := by
  induction ms generalizing n tail with
  | nil => exact ⟨[], tail, rfl, rfl, h.symm, fun _ => rfl, by simp⟩
  | cons t ms ih =>
      obtain ⟨used, c, back, m, rfl, hreads, hstart, htoken, hbehind⟩ := exists_reads_of_split (show _ = [] ++ t :: (ms ++ cs) from h)
      obtain rfl := hreads.stays rfl rfl
      obtain ⟨hlex, -, hstop⟩ := stop_of_tokenOf htoken
      obtain ⟨hmodes, hturn⟩ := codeStep_header t.lexeme hlex (hms t List.mem_cons_self)
      rw [step] at hbehind hstop hlex
      rw [hmodes] at hbehind
      obtain ⟨front, rest, hsplit, hlast, hcs, hnil, hend⟩ := ih hbehind.symm fun u hu => hms u (List.mem_cons_of_mem t hu)
      have hwidth : t.stop + width front =
          n + width (used ++ c :: (back.take (codeStep depth outer c back).more ++ front)) := by
        rw [hstop, hstart, width_append, ← List.cons_append, width_append]
        omega
      refine ⟨used ++ c :: (back.take (codeStep depth outer c back).more ++ front), rest, ?_, ?_, ?_,
        fun hnone => absurd hnone (List.cons_ne_nil t ms), fun u hu => ?_⟩
      · rw [List.append_assoc, List.cons_append, List.append_assoc, ← hsplit, List.take_append_drop]
      · rw [lastStop_cons, hlast, hwidth]
      · rw [hcs, hwidth]
      · cases ms with
        | nil =>
            obtain rfl := Option.some.inj hu
            obtain rfl := hnil rfl
            rw [List.append_nil]
            exact ⟨used, c, back, _, rfl, hsplit.symm, hturn⟩
        | cons v vs =>
            rw [List.getLast?_cons_cons] at hu
            obtain ⟨w, d, rear, k, rfl, hrest, hturn'⟩ := hend u hu
            refine ⟨used ++ c :: (back.take (codeStep depth outer c back).more ++ w), d, rear, k, ?_, hrest, hturn'⟩
            rw [List.append_assoc, List.cons_append, List.append_assoc]

/-- What the scanner reads in code at a quote or a separator is neither the tag that ends code nor a comment. -/
theorem codeStep_quiet {depth : Nat} {outer : List Mode} {c : Char} (hc : c ∈ ['"', '\x60', '\\']) (cs : List Char) :
    ∃ l, (codeStep depth outer c cs).lexeme = some l ∧ l ≠ .leave ∧ l.isComment = false := by
  simp only [List.mem_cons, List.not_mem_nil, or_false] at hc
  rcases hc with rfl | rfl | rfl
  · by_cases h : isClosed '"' cs
    · exact ⟨.quote, by simp [codeStep, signStep, h, isBlank, isGap, isNameStart], by simp, rfl⟩
    · exact ⟨.operator, by simp [codeStep, signStep, h, isBlank, isGap, isNameStart], by simp, rfl⟩
  · by_cases h : isClosed '\x60' cs
    · exact ⟨.quote, by simp [codeStep, signStep, h, isBlank, isGap, isNameStart], by simp, rfl⟩
    · exact ⟨.operator, by simp [codeStep, signStep, h, isBlank, isGap, isNameStart], by simp, rfl⟩
  · exact ⟨.separator, rfl, by simp, rfl⟩

/-- In front of the tag that ends code, and of a comment, no string begins and nothing is escaped. -/
theorem quiet_of_head {depth : Nat} {outer : List Mode} {n : Nat} {rest : List Char} {u : Token}
    (h : u ∈ (tokensFrom (.code depth :: outer) n rest).head?) (hu : u.lexeme = .leave ∨ u.lexeme.isComment) :
    ∀ x ∈ rest.head?, x ∉ ['"', '\x60', '\\'] := by
  intro x hx hmem
  cases rest with
  | nil => cases hx
  | cons c cs =>
      obtain rfl := Option.some.inj hx
      obtain ⟨l, hl, hleave, hcomment⟩ := @codeStep_quiet depth outer c hmem cs
      rw [tokensFrom_step, step, tokenOf, hl] at h
      rw [← Option.some.inj h] at hu
      rcases hu with hu | hu
      · exact hleave hu
      · rw [hcomment] at hu
        cases hu

end Lexer

end Namesake.Php
