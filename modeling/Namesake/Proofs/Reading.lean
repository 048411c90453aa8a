import Namesake.Proofs.Scanning

/-! What the scanner has read when it stands somewhere inside a text. `tokensFrom` is the scanner as a plain function
of the modes, the offset and the text in front of it; `Reads` cuts its run at a place between two steps. The
tokens of a text are then those read in front of the place and those of the rest, and the offset counts
only where the tokens stand. -/

namespace Namesake.Php

/-- The token as many octets further on. -/
def Token.shift (k : Nat) (t : Token) : Token :=
  ⟨t.lexeme, k + t.start, k + t.stop⟩

/-- The tokens stand one behind the other. -/
structure Ordered (ts : List Token) : Prop where
  solid : ∀ t ∈ ts, t.start < t.stop
  apart : ts.Pairwise fun t u => t.stop ≤ u.start

namespace Lexer

open Text

/-! ### The scanner as a function -/

@[simp] theorem width_nil : width [] = 0 := rfl

theorem width_pos {cs : List Char} (h : cs ≠ []) : 0 < width cs := by
  rw [width_eq]
  exact Utf8.length_encodeChars_pos h

/-- The token that a step from the first character of `cs` at an offset gives. -/
def tokenOf (s : Step) (offset : Nat) (c : Char) (cs : List Char) : List Token :=
  (s.lexeme.map fun l => Token.mk l offset (offset + width (c :: cs.take s.more))).toList

theorem tokensFrom_step (modes : List Mode) (offset : Nat) (c : Char) (cs : List Char) :
    tokensFrom modes offset (c :: cs) = tokenOf (step modes c cs) offset c cs ++
      tokensFrom (step modes c cs).modes (offset + width (c :: cs.take (step modes c cs).more))
        (cs.drop (step modes c cs).more) := by
  rw [tokensFrom_cons, tokenOf, width_cons, Nat.add_assoc]

/-! ### A part of a run -/

/-- The scanner reads `used` in front of `rest`: from the first modes, at an offset, it gives the tokens and arrives
in the modes `arrival`, and no step reads past `used`. -/
inductive Reads (rest : List Char) (arrival : List Mode) : List Mode → Nat → List Char → List Token → Prop
  | nil {n : Nat} : Reads rest arrival arrival n [] []
  | cons {m : List Mode} {n : Nat} {c : Char} {w u : List Char} {ts : List Token}
      (hmore : (step m c (w ++ (u ++ rest))).more = w.length)
      (hback : Reads rest arrival (step m c (w ++ (u ++ rest))).modes (n + width (c :: w)) u ts) :
      Reads rest arrival m n (c :: (w ++ u)) (tokenOf (step m c (w ++ (u ++ rest))) n c w ++ ts)

theorem tokenOf_append (s : Step) (n : Nat) (c : Char) {w : List Char} (back : List Char) (h : s.more = w.length) :
    tokenOf s n c (w ++ back) = tokenOf s n c w := by
  rw [tokenOf, tokenOf, h, List.take_left, List.take_length]

namespace Reads

variable {rest : List Char} {m m₁ arrival : List Mode} {n : Nat} {used : List Char} {ts : List Token}

/-- The tokens are those read and those of the rest. -/
theorem tokens_eq (h : Reads rest arrival m n used ts) :
    tokensFrom m n (used ++ rest) = ts ++ tokensFrom arrival (n + width used) rest := by
  induction h with
  | nil => rw [List.nil_append, List.nil_append, width_nil, Nat.add_zero]
  | @cons m n c w u ts hmore _ ih =>
      have hwidth : n + width (c :: w) + width u = n + width (c :: (w ++ u)) := by
        simp only [width_cons, width_append, Nat.add_assoc]
      calc tokensFrom m n (c :: (w ++ u) ++ rest)
          = tokenOf (step m c (w ++ (u ++ rest))) n c w ++
              tokensFrom (step m c (w ++ (u ++ rest))).modes (n + width (c :: w)) (u ++ rest) := by
            rw [List.cons_append, List.append_assoc, tokensFrom_step, tokenOf_append _ _ _ _ hmore, hmore, List.take_left,
              List.drop_left]
        _ = tokenOf (step m c (w ++ (u ++ rest))) n c w ++ (ts ++ tokensFrom arrival (n + width (c :: w) + width u) rest) := by
            rw [ih]
        _ = _ := by rw [hwidth, List.append_assoc]

/-- What is read behind one step is read behind its characters. -/
theorem of_step {c : Char} {cs : List Char} (hfits : (step m c cs).more ≤ cs.length)
    (hcs : cs.drop (step m c cs).more = used ++ rest)
    (h : Reads rest arrival (step m c cs).modes (n + width (c :: cs.take (step m c cs).more)) used ts) :
    c :: cs = c :: (cs.take (step m c cs).more ++ used) ++ rest ∧
      Reads rest arrival m n (c :: (cs.take (step m c cs).more ++ used)) (tokenOf (step m c cs) n c cs ++ ts) := by
  generalize hs : step m c cs = s at *
  have hsplit : cs = cs.take s.more ++ (used ++ rest) := by rw [← hcs, List.take_append_drop]
  have hw : (cs.take s.more).length = s.more := by rw [List.length_take, Nat.min_eq_left hfits]
  have hstep : step m c (cs.take s.more ++ (used ++ rest)) = s := by rw [← hsplit, hs]
  have htaken : tokenOf s n c cs = tokenOf s n c (cs.take s.more) := by
    conv_lhs => rw [← List.take_append_drop s.more cs]
    exact tokenOf_append s n c _ hw.symm
  constructor
  · rw [List.cons_append, List.append_assoc, ← hsplit]
  · have hcons : Reads rest arrival m n (c :: (cs.take s.more ++ used)) _ :=
      .cons (by rw [hstep, hw]) (by rw [hstep]; exact h)
    rwa [hstep, ← htaken] at hcons

end Reads

/-- The place of a token in a text: the scanner arrives at it, its next step gives the token, and the rest follows from there. -/
theorem exists_reads_of_split {m : List Mode} {n : Nat} {cs : List Char} {as bs : List Token} {t : Token}
    (h : tokensFrom m n cs = as ++ t :: bs) :
    ∃ used c back m₁, cs = used ++ c :: back ∧ Reads (c :: back) m₁ m n used as ∧ t.start = n + width used ∧
      tokenOf (step m₁ c back) t.start c back = [t] ∧
      bs = tokensFrom (step m₁ c back).modes t.stop (back.drop (step m₁ c back).more) := by
  induction hlen : cs.length using Nat.strong_induction_on generalizing m n cs as with
  | _ len ih =>
      cases cs with
      | nil => rw [tokensFrom_nil] at h; simp at h
      | cons c cs =>
          rw [tokensFrom_step] at h
          generalize hs : step m c cs = s at h
          have hback {as' : List Token} (h : tokensFrom s.modes (n + width (c :: cs.take s.more)) (cs.drop s.more) = as' ++ t :: bs) :
              ∃ used d back m₁, c :: cs = used ++ d :: back ∧ Reads (d :: back) m₁ m n used (tokenOf s n c cs ++ as') ∧
                t.start = n + width used ∧ tokenOf (step m₁ d back) t.start d back = [t] ∧
                bs = tokensFrom (step m₁ d back).modes t.stop (back.drop (step m₁ d back).more) := by
            have hfits : s.more ≤ cs.length := by
              by_contra hlt
              rw [List.drop_of_length_le (by omega), tokensFrom_nil] at h
              simp at h
            have hlt : (cs.drop s.more).length < len := by
              rw [← hlen, List.length_drop, List.length_cons]
              omega
            obtain ⟨used, d, back, m₁, hcs, hreads, hstart, htok, hbs⟩ := ih _ hlt h rfl
            subst hs
            obtain ⟨hsplit, hcons⟩ := Reads.of_step hfits hcs hreads
            refine ⟨_, d, back, m₁, hsplit, hcons, ?_, htok, hbs⟩
            rw [hstart, width_cons, width_cons, width_append]
            omega
          cases hl : s.lexeme with
          | none =>
              have hnone : tokenOf s n c cs = [] := by simp [tokenOf, hl]
              rw [hnone, List.nil_append] at h
              have hfound := hback h
              rwa [hnone, List.nil_append] at hfound
          | some l =>
              have hsome : tokenOf s n c cs = [⟨l, n, n + width (c :: cs.take s.more)⟩] := by simp [tokenOf, hl]
              rw [hsome, List.singleton_append] at h
              cases as with
              | nil =>
                  rw [List.nil_append, List.cons.injEq] at h
                  obtain ⟨rfl, rfl⟩ := h
                  exact ⟨[], c, cs, m, rfl, .nil, rfl, by rw [hs]; exact hsome, by rw [hs]⟩
              | cons x as =>
                  rw [List.cons_append, List.cons.injEq] at h
                  obtain ⟨rfl, h⟩ := h
                  have hfound := hback h
                  rwa [hsome, List.singleton_append] at hfound

theorem exists_reads_of_mem {m : List Mode} {n : Nat} {cs : List Char} {t : Token} (h : t ∈ tokensFrom m n cs) :
    ∃ used c back ts m₁, cs = used ++ c :: back ∧ Reads (c :: back) m₁ m n used ts ∧ t.start = n + width used ∧
      tokenOf (step m₁ c back) t.start c back = [t] := by
  obtain ⟨as, bs, hsplit⟩ := List.append_of_mem h
  obtain ⟨used, c, back, m₁, hcs, hreads, hstart, htok, -⟩ := exists_reads_of_split hsplit
  exact ⟨used, c, back, as, m₁, hcs, hreads, hstart, htok⟩

/-- A token begins with its first character and covers as many more as its step says. -/
theorem stop_of_tokenOf {s : Step} {n : Nat} {c : Char} {cs : List Char} {t : Token} (h : tokenOf s n c cs = [t]) :
    s.lexeme = some t.lexeme ∧ t.start = n ∧ t.stop = n + width (c :: cs.take s.more) := by
  cases hl : s.lexeme with
  | none => simp [tokenOf, hl] at h
  | some l =>
      simp only [tokenOf, hl, Option.map_some, Option.toList_some, List.cons.injEq, and_true] at h
      subst h
      exact ⟨rfl, rfl, rfl⟩

theorem tokensFrom_bounds {m : List Mode} {n : Nat} {cs : List Char} {t : Token} (h : t ∈ tokensFrom m n cs) :
    n ≤ t.start ∧ t.start < t.stop := by
  obtain ⟨used, c, back, ts, m₁, -, -, hstart, htok⟩ := exists_reads_of_mem h
  obtain ⟨-, -, hstop⟩ := stop_of_tokenOf htok
  have hc := c.utf8Size_pos
  rw [width_cons] at hstop
  omega

theorem ordered_tokensFrom (m : List Mode) (n : Nat) (cs : List Char) : Ordered (tokensFrom m n cs) := by
  refine ⟨fun t ht => (tokensFrom_bounds ht).2, ?_⟩
  induction hlen : cs.length using Nat.strong_induction_on generalizing m n cs with
  | _ len ih =>
      cases cs with
      | nil => rw [tokensFrom_nil]; exact .nil
      | cons c cs =>
          have hlt : (cs.drop (step m c cs).more).length < len := by
            rw [← hlen, List.length_drop, List.length_cons]
            omega
          rw [tokensFrom_step, List.pairwise_append]
          refine ⟨?_, ih _ hlt _ _ _ rfl, fun t ht u hu => ?_⟩
          · cases hl : (step m c cs).lexeme <;> simp [tokenOf, hl]
          · rw [tokenOf, Option.mem_toList, Option.map_eq_some_iff] at ht
            obtain ⟨l, -, rfl⟩ := ht
            exact (tokensFrom_bounds hu).1

/-! ### Offsets -/

theorem tokenOf_shift (s : Step) (k n : Nat) (c : Char) (cs : List Char) :
    tokenOf s (k + n) c cs = (tokenOf s n c cs).map (Token.shift k) := by
  cases h : s.lexeme with
  | none => simp [tokenOf, h]
  | some l => simp [tokenOf, h, Token.shift, Nat.add_assoc]

theorem tokensFrom_shift (m : List Mode) (k n : Nat) (cs : List Char) :
    tokensFrom m (k + n) cs = (tokensFrom m n cs).map (Token.shift k) := by
  induction h : cs.length using Nat.strong_induction_on generalizing m n cs with
  | _ len ih =>
      cases cs with
      | nil => simp
      | cons c cs =>
          have hlt : (cs.drop (step m c cs).more).length < len := by
            rw [← h, List.length_drop, List.length_cons]
            omega
          rw [tokensFrom_step, tokensFrom_step, List.map_append, tokenOf_shift, Nat.add_assoc, ih _ hlt _ _ _ rfl]

end Lexer

end Namesake.Php
