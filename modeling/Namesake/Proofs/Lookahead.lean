import Mathlib.Data.List.TakeWhile
import Namesake.Proofs.Identifiers
import Namesake.Proofs.Modes

/-! How far the scanner looks. The lengths of comments, strings, numbers and here-documents hang on what follows their
begin; here it is said of each of them that it does not change when the text behind its end does, as long as the place
where the text changes is the begin of a name before and after. -/

namespace Namesake.Php.Lexer

/-! ### Names -/

theorem isNamePart_of_isNameStart {c : Char} (h : isNameStart c) : isNamePart c := by
  rw [isNamePart, h, Bool.true_or]

/-- The characters that mean something to the scanner and begin no name. -/
def marks : List Char :=
  ['?', '>', '\n', '\r', '*', '/', '\\', '\'', '"', '\x60', '<', '=', '[', ']', '(', ')', ':', ';', '$', '{', '}', '#', ' ',
    '\t', '.', '+', '-']

theorem not_isNameStart_of_mem_marks {c : Char} (h : c ∈ marks) : isNamePart c = false := by
  have hall : marks.all (fun c => !isNamePart c) = true := by decide
  simpa using List.all_eq_true.mp hall c h

theorem ne_of_isNamePart {c d : Char} (h : isNamePart c) (hd : d ∈ marks) : c ≠ d := by
  rintro rfl
  rw [not_isNameStart_of_mem_marks hd] at h
  cases h

theorem isDigit_eq_false_of_isNameStart {c : Char} (h : isNameStart c) : c.isDigit = false := by
  by_contra hd
  rw [Bool.not_eq_false] at hd
  obtain ⟨hfirst, hlast⟩ := Bool.and_eq_true_iff.mp (show (decide ('0' ≤ c) && decide (c ≤ '9')) = true from hd)
  have hrange : 48 ≤ c.toNat ∧ c.toNat ≤ 57 := ⟨of_decide_eq_true hfirst, of_decide_eq_true hlast⟩
  rcases Bool.or_eq_true_iff.mp (show ((c == '_' || c.isAlpha) || ('\u0080' ≤ c && !isGap c)) = true from h) with h | h
  · have hletter := toNat_of_letter h
    omega
  · have hbeyond : 128 ≤ c.toNat := of_decide_eq_true (Bool.and_eq_true_iff.mp h).1
    omega

/-- A name and what follows it. -/
structure Named (name back : List Char) : Prop where
  ne_nil : name ≠ []
  start : ∀ c ∈ name.head?, isNameStart c
  part : ∀ c ∈ name, isNamePart c
  ends : ∀ c ∈ back.head?, isNamePart c = false

theorem Named.exists_cons {name back : List Char} (h : Named name back) :
    ∃ c cs, name = c :: cs ∧ isNameStart c := by
  obtain ⟨c, cs, rfl⟩ := List.exists_cons_of_ne_nil h.ne_nil
  exact ⟨c, cs, rfl, h.start c rfl⟩

theorem Named.takeWhile_eq {name back : List Char} (h : Named name back) :
    (name ++ back).takeWhile isNamePart = name := by
  rw [List.takeWhile_append_of_pos h.part]
  cases back with
  | nil => simp
  | cons b back => rw [List.takeWhile_cons_of_neg (by simp [h.ends b rfl]), List.append_nil]

/-! ### What ends in front of the name -/

theorem takeWhile_swap {p : Char → Bool} {u ys : List Char} {y : Char} (hy : p y)
    (h : ((u ++ y :: ys).takeWhile p).length ≤ u.length) (zs : List Char) :
    (u ++ zs).takeWhile p = (u ++ y :: ys).takeWhile p := by
  induction u with
  | nil => simp [hy] at h
  | cons c u ih =>
      simp only [List.cons_append, List.takeWhile_cons] at h ⊢
      split at h
      · rename_i hc
        rw [if_pos hc, if_pos hc, ih (by simpa using h)]
      · rename_i hc
        rw [if_neg hc, if_neg hc]

theorem le_singleQuoted (n : Nat) (cs : List Char) : n ≤ singleQuoted n cs := by
  fun_induction singleQuoted n cs with
  | case1 => exact le_rfl
  | case2 => omega
  | case3 => omega
  | case4 => omega
  | case5 => omega

theorem singleQuoted_cons {c : Char} (hc : c ≠ '\\') (n : Nat) (cs : List Char) :
    singleQuoted n (c :: cs) = if c == '\'' then n + 1 else singleQuoted (n + 1) cs := by
  rw [singleQuoted]
  · rintro rfl
    exact absurd rfl hc
  · rintro d cs rfl
    exact absurd rfl hc

theorem singleQuoted_swap {n : Nat} {u ys : List Char} {y : Char} (hy : isNamePart y) (zs : List Char)
    (h : singleQuoted n (u ++ y :: ys) ≤ n + u.length) :
    singleQuoted n (u ++ zs) = singleQuoted n (u ++ y :: ys) := by
  induction hlen : u.length using Nat.strong_induction_on generalizing n u with
  | _ len ih =>
      rcases u with _ | ⟨c, u⟩
      · have hle := le_singleQuoted (n + 1) ys
        rw [List.nil_append, singleQuoted_cons (ne_of_isNamePart hy (by decide)),
          if_neg (by simpa using ne_of_isNamePart hy (by decide))] at h
        simp only [List.length_nil] at h
        omega
      by_cases hc : c = '\\'
      · subst hc
        rcases u with _ | ⟨d, u⟩
        · have hle := le_singleQuoted (n + 2) ys
          simp only [List.cons_append, List.nil_append, singleQuoted, List.length_singleton] at h
          omega
        · simp only [List.cons_append, singleQuoted, List.length_cons] at h hlen ⊢
          exact ih u.length (by omega) (by omega) rfl
      · rw [List.cons_append, singleQuoted_cons hc] at h
        rw [List.cons_append, List.cons_append, singleQuoted_cons hc, singleQuoted_cons hc]
        split at h
        · rename_i hq
          rw [if_pos hq, if_pos hq]
        · rename_i hq
          rw [if_neg hq, if_neg hq]
          rw [List.length_cons] at h hlen
          exact ih u.length (by omega) (by omega) rfl

theorem le_lineComment (n : Nat) (cs : List Char) : n ≤ (lineComment n cs).1 := by
  fun_induction lineComment n cs <;> first | exact le_rfl | omega

theorem lineComment_cons {c : Char} (hc : c ≠ '?') (n : Nat) (cs : List Char) :
    lineComment n (c :: cs) = if isLineEnd c then (n, true) else lineComment (n + 1) cs := by
  rw [lineComment]
  all_goals first
    | (rintro rfl; exact absurd rfl hc)
    | (rintro _ rfl; exact absurd rfl hc)
    | (rintro _ _ rfl; exact absurd rfl hc)

theorem lineComment_mark {d : Char} (hd : d ∉ ['>', '\n', '\r']) (n : Nat) (cs : List Char) :
    lineComment n ('?' :: d :: cs) = lineComment (n + 2) cs := by
  simp only [List.mem_cons, List.not_mem_nil, or_false, not_or] at hd
  rw [lineComment]
  · exact hd.1
  · exact hd.2.1
  · intro _ h
    exact absurd h hd.2.2
  · exact hd.2.2

theorem lineComment_return {d : Char} (hd : d ≠ '\n') (n : Nat) (cs : List Char) :
    lineComment n ('?' :: '\r' :: d :: cs) = (n, true) := by
  rw [lineComment]
  rintro _ ⟨⟩
  exact hd rfl

theorem lineComment_swap {n : Nat} {u ys zs : List Char} {y z : Char} (hy : isNamePart y) (hz : isNamePart z)
    (h : (lineComment n (u ++ y :: ys)).1 ≤ n + u.length) :
    lineComment n (u ++ z :: zs) = lineComment n (u ++ y :: ys) := by
  induction hlen : u.length using Nat.strong_induction_on generalizing n u with
  | _ len ih =>
      have hyend : isLineEnd y = false := by
        simp [isLineEnd, ne_of_isNamePart hy (d := '\n') (by decide), ne_of_isNamePart hy (d := '\r') (by decide)]
      rcases u with _ | ⟨c, u⟩
      · have hle := le_lineComment (n + 1) ys
        rw [List.nil_append, lineComment_cons (ne_of_isNamePart hy (by decide)), hyend,
          if_neg Bool.false_ne_true, List.length_nil] at h
        omega
      by_cases hc : c = '?'
      · subst hc
        rcases u with _ | ⟨d, u⟩
        · have hle := le_lineComment (n + 2) ys
          have hyd : y ∉ ['>', '\n', '\r'] := by
            simp [ne_of_isNamePart hy (d := '>') (by decide), ne_of_isNamePart hy (d := '\n') (by decide),
              ne_of_isNamePart hy (d := '\r') (by decide)]
          rw [List.cons_append, List.nil_append, lineComment_mark hyd, List.length_singleton] at h
          omega
        by_cases hd : d ∈ ['>', '\n', '\r']
        · simp only [List.mem_cons, List.not_mem_nil, or_false] at hd
          rcases hd with rfl | rfl | rfl
          · rfl
          · rfl
          · rcases u with _ | ⟨e, u⟩
            · rw [List.cons_append, List.cons_append, List.cons_append, List.cons_append, List.nil_append,
                List.nil_append, lineComment_return (ne_of_isNamePart hy (by decide)),
                lineComment_return (ne_of_isNamePart hz (by decide))]
            · by_cases he : e = '\n'
              · subst he
                rfl
              · simp only [List.cons_append]
                rw [lineComment_return he, lineComment_return he]
        · simp only [List.cons_append, List.length_cons, lineComment_mark hd] at h hlen ⊢
          exact ih u.length (by omega) (by omega) rfl
      · rw [List.cons_append, lineComment_cons hc] at h
        rw [List.cons_append, List.cons_append, lineComment_cons hc, lineComment_cons hc]
        split at h
        · rename_i he
          rw [if_pos he, if_pos he]
        · rename_i he
          rw [if_neg he, if_neg he]
          rw [List.length_cons] at h hlen
          exact ih u.length (by omega) (by omega) rfl

theorem le_of_blockComment {n k : Nat} {cs : List Char} (h : blockComment n cs = some k) : n + 2 ≤ k := by
  fun_induction blockComment n cs with
  | case1 => cases h; omega
  | case2 n c cs hne ih => have := ih h; omega
  | case3 => cases h

theorem blockComment_cons {c : Char} {cs : List Char} (h : ¬ (c = '*' ∧ cs.head? = some '/')) (n : Nat) :
    blockComment n (c :: cs) = blockComment (n + 1) cs := by
  rw [blockComment]
  rintro _ rfl rfl
  exact h ⟨rfl, rfl⟩

theorem blockComment_swap {n k : Nat} {u ys : List Char} {y : Char} (hy : isNamePart y) (zs : List Char)
    (h : blockComment n (u ++ y :: ys) = some k) (hk : k ≤ n + u.length) :
    blockComment n (u ++ zs) = some k := by
  induction u generalizing n with
  | nil =>
      have hle := le_of_blockComment h
      rw [List.length_nil] at hk
      omega
  | cons c u ih =>
      rw [List.length_cons] at hk
      rcases u with _ | ⟨d, u⟩
      · have hyd : y ≠ '/' := ne_of_isNamePart hy (by decide)
        rw [List.cons_append, blockComment_cons (by simp [hyd])] at h
        have hle := le_of_blockComment h
        rw [List.length_nil] at hk
        omega
      · by_cases hmark : c = '*' ∧ d = '/'
        · obtain ⟨rfl, rfl⟩ := hmark
          exact h
        · have hne (xs : List Char) : ¬ (c = '*' ∧ (d :: u ++ xs).head? = some '/') := by simpa using hmark
          rw [List.cons_append, blockComment_cons (hne _)] at h ⊢
          exact ih h (by omega)

/-- A comment without an end has no end mark anywhere. -/
theorem blockComment_eq_none_iff (n : Nat) (cs : List Char) : blockComment n cs = none ↔ ¬ ['*', '/'] <:+: cs := by
  induction cs generalizing n with
  | nil => simp [blockComment]
  | cons c cs ih =>
      rw [List.infix_cons_iff]
      by_cases hmark : c = '*' ∧ cs.head? = some '/'
      · obtain ⟨rfl, hcs⟩ := hmark
        obtain ⟨cs, rfl⟩ := List.head?_eq_some_iff.mp hcs
        simp [blockComment]
      · rw [blockComment_cons hmark, ih, not_or, iff_and_self]
        intro _ hpre
        rw [List.cons_prefix_cons] at hpre
        obtain ⟨rfl, hpre⟩ := hpre
        cases cs with
        | nil => simp at hpre
        | cons d cs =>
            rw [List.cons_prefix_cons] at hpre
            exact hmark ⟨rfl, by rw [← hpre.1]; rfl⟩

theorem endMark_append_cons {a : Char} (hstar : a ≠ '*') (hslash : a ≠ '/') (xs ys : List Char) :
    ['*', '/'] <:+: xs ++ a :: ys ↔ ['*', '/'] <:+: xs ∨ ['*', '/'] <:+: ys := by
  induction xs with
  | nil => simp [List.infix_cons_iff, List.cons_prefix_cons, hstar.symm]
  | cons x xs ih =>
      rw [List.cons_append, List.infix_cons_iff, List.infix_cons_iff, ih, or_assoc]
      refine or_congr_left' fun _ => ?_
      rw [List.cons_prefix_cons, List.cons_prefix_cons]
      cases xs with
      | nil => simp [List.cons_prefix_cons, hslash.symm]
      | cons x' xs => simp [List.cons_prefix_cons]

theorem endMark_append_name {name : List Char} (hne : name ≠ []) (hpart : ∀ c ∈ name, isNamePart c)
    (xs ys : List Char) : ['*', '/'] <:+: xs ++ (name ++ ys) ↔ ['*', '/'] <:+: xs ∨ ['*', '/'] <:+: ys := by
  induction name generalizing xs with
  | nil => exact absurd rfl hne
  | cons a name ih =>
      have ha := hpart a List.mem_cons_self
      rw [List.cons_append, endMark_append_cons (ne_of_isNamePart ha (by decide)) (ne_of_isNamePart ha (by decide))]
      cases name with
      | nil => rfl
      | cons b name =>
          have hback := ih (List.cons_ne_nil _ _) (fun c hc => hpart c (List.mem_cons_of_mem _ hc)) []
          rw [List.nil_append] at hback
          rw [hback]
          simp

/-- A line comment ends before the end of its line or before a question mark, or with the end of its line. -/
theorem lineComment_end (n : Nat) (cs : List Char) : ∃ k, (lineComment n cs).1 = n + k ∧
    ((∀ x ∈ (cs.drop k).head?, x ∈ ['\n', '\r', '?']) ∨ (cs.take k).getLast? = some '\n') := by
  fun_induction lineComment n cs with
  | case1 n => exact ⟨0, rfl, .inl (by simp)⟩
  | case2 n => exact ⟨0, rfl, .inl (by simp)⟩
  | case3 n => exact ⟨2, rfl, .inr rfl⟩
  | case4 n => exact ⟨3, rfl, .inr rfl⟩
  | case5 n => exact ⟨0, rfl, .inl (by simp)⟩
  | case6 n => exact ⟨0, rfl, .inl (by simp)⟩
  | case7 n d cs hclose hline hreturn hreturn' ih =>
      obtain ⟨k, hk, hend⟩ := ih
      refine ⟨2 + k, by rw [hk, Nat.add_assoc], ?_⟩
      rw [Nat.add_comm, List.drop_succ_cons, List.drop_succ_cons, List.take_succ_cons, List.take_succ_cons]
      refine hend.imp_right fun hlast => ?_
      rw [List.getLast?_cons, List.getLast?_cons, hlast]
      rfl
  | case8 n c cs _ _ _ _ _ _ hline =>
      refine ⟨0, rfl, .inl ?_⟩
      simp only [isLineEnd, Bool.or_eq_true, beq_iff_eq] at hline
      rcases hline with rfl | rfl <;> simp
  | case9 n c cs _ _ _ _ _ _ hline ih =>
      obtain ⟨k, hk, hend⟩ := ih
      refine ⟨1 + k, by rw [hk, Nat.add_assoc], ?_⟩
      rw [Nat.add_comm, List.drop_succ_cons, List.take_succ_cons]
      refine hend.imp_right fun hlast => ?_
      rw [List.getLast?_cons, hlast]
      rfl

/-- A comment with an end mark ends with it. -/
theorem blockComment_end {n m : Nat} {cs : List Char} (h : blockComment n cs = some m) :
    ∃ k, m = n + k ∧ (cs.take k).getLast? = some '/' := by
  fun_induction blockComment n cs with
  | case1 n => exact ⟨2, (Option.some.inj h).symm, rfl⟩
  | case2 n c cs _ ih =>
      obtain ⟨k, hk, hlast⟩ := ih h
      refine ⟨1 + k, by rw [hk, Nat.add_assoc], ?_⟩
      rw [Nat.add_comm, List.take_succ_cons, List.getLast?_cons, hlast]
      rfl
  | case3 => cases h

/-! ### Here-documents -/

/-- Is it a blank within a line? -/
def isInset (c : Char) : Bool :=
  c == ' ' || c == '\t'

theorem drop_length_takeWhile (p : Char → Bool) (cs : List Char) :
    cs.drop (cs.takeWhile p).length = cs.dropWhile p := by
  have hsplit := List.takeWhile_append_dropWhile (p := p) (l := cs)
  generalize cs.takeWhile p = front at hsplit
  rw [← hsplit, List.drop_left, hsplit]

theorem inset_append_cons {x : Char} (hx : isNamePart x) (u xs : List Char) :
    (u ++ x :: xs).takeWhile isInset = u.takeWhile isInset ∧
      (u ++ x :: xs).dropWhile isInset = u.dropWhile isInset ++ x :: xs := by
  have hxi : isInset x = false := by
    simp [isInset, ne_of_isNamePart hx (d := ' ') (by decide), ne_of_isNamePart hx (d := '\t') (by decide)]
  induction u with
  | nil => simp [hxi]
  | cons c u ih =>
      simp only [List.cons_append, List.takeWhile_cons, List.dropWhile_cons]
      split
      · exact ⟨by rw [ih.1], ih.2⟩
      · exact ⟨rfl, rfl⟩

theorem endLine?_eq (label cs : List Char) :
    endLine? label cs =
      if label <+: cs.dropWhile isInset ∧
          ¬ ((cs.dropWhile isInset).drop label.length).head?.any isNamePart then
        some ((cs.takeWhile isInset).length + label.length)
      else none := by
  have hinset : (fun c => c == ' ' || c == '\t') = isInset := rfl
  simp only [endLine?, run, hinset, drop_length_takeWhile, Bool.and_eq_true, List.isPrefixOf_iff_prefix, Bool.not_eq_true',
    Bool.not_eq_true]

/-- A line that goes on with what is no part of a name does not depend on what follows. -/
theorem endLine?_append {label u : List Char} (hlabel : ∀ c ∈ label, isNamePart c)
    (h : ∃ c ∈ u.dropWhile isInset, isNamePart c = false) (xs : List Char) :
    endLine? label (u ++ xs) = endLine? label u := by
  obtain ⟨o, ho, hodd⟩ := h
  have hne : (u.dropWhile isInset).isEmpty = false := by
    rw [List.isEmpty_eq_false_iff]
    exact List.ne_nil_of_mem ho
  have hdrop : (u ++ xs).dropWhile isInset = u.dropWhile isInset ++ xs := by
    rw [List.dropWhile_append, hne, if_neg Bool.false_ne_true]
  have htake : (u ++ xs).takeWhile isInset = u.takeWhile isInset := by
    rw [List.takeWhile_append, if_neg]
    intro hlen
    have hsplit := congrArg List.length (List.takeWhile_append_dropWhile (p := isInset) (l := u))
    rw [List.length_append, hlen] at hsplit
    rw [List.eq_nil_of_length_eq_zero (l := u.dropWhile isInset) (by omega)] at ho
    cases ho
  rw [endLine?_eq, endLine?_eq, hdrop, htake]
  generalize u.dropWhile isInset = r at ho
  have hbegins : label <+: r ++ xs ↔ label <+: r := by
    refine ⟨fun hl => ?_, fun hl => hl.trans (List.prefix_append _ _)⟩
    refine (List.prefix_or_prefix_of_prefix hl (List.prefix_append _ _)).resolve_right fun hr => ?_
    rw [hlabel o (hr.subset ho)] at hodd
    cases hodd
  by_cases hl : label <+: r
  · obtain ⟨t, rfl⟩ := hl
    have ht : t ≠ [] := by
      rintro rfl
      rw [hlabel o (by simpa using ho)] at hodd
      cases hodd
    simp only [List.prefix_append, List.append_assoc, List.drop_left, List.head?_append_of_ne_nil _ ht]
  · rw [if_neg (fun h => hl (hbegins.mp h.1)), if_neg (fun h => hl h.1)]

/-- A line that goes on with a name ends behind it. -/
theorem length_lt_of_endLine? {label u xs : List Char} {x : Char} {k : Nat} (hx : isNamePart x)
    (h : ∀ c ∈ u.dropWhile isInset, isNamePart c) (hk : endLine? label (u ++ x :: xs) = some k) : u.length < k := by
  have hsplit := inset_append_cons hx u xs
  have hlen := congrArg List.length (List.takeWhile_append_dropWhile (p := isInset) (l := u))
  rw [endLine?_eq, hsplit.1, hsplit.2] at hk
  generalize u.dropWhile isInset = r at h hk hlen
  split at hk
  · rename_i hcond
    cases hk
    rw [List.length_append] at hlen
    by_contra hlt
    have hle : label.length ≤ r.length := by omega
    apply hcond.2
    rw [List.drop_append_of_le_length hle]
    cases hd : r.drop label.length with
    | nil => simpa using hx
    | cons c t =>
        have hc : c ∈ r := List.mem_of_mem_drop (by rw [hd]; exact List.mem_cons_self)
        simpa using h c hc
  · cases hk

theorem le_rawDocument (label : List Char) (n : Nat) (cs : List Char) : n ≤ rawDocument label n cs := by
  induction cs generalizing n with
  | nil => exact le_rfl
  | cons c cs ih =>
      rw [rawDocument]
      split
      · omega
      · exact (Nat.le_succ n).trans (ih (n + 1))

theorem isLineEnd_eq_false {c : Char} (h : isNamePart c) : isLineEnd c = false := by
  simp [isLineEnd, ne_of_isNamePart h (d := '\n') (by decide), ne_of_isNamePart h (d := '\r') (by decide)]

theorem rawDocument_cons_of_not {c : Char} (hc : isLineEnd c = false) (label : List Char) (n : Nat) (cs : List Char) :
    rawDocument label n (c :: cs) = rawDocument label (n + 1) cs := by
  rw [rawDocument, hc]

/-- A document goes on through a line. -/
theorem length_lt_rawDocument {label u xs : List Char} (hu : ∀ c ∈ u, isLineEnd c = false) {x : Char}
    (hx : isNamePart x) (n : Nat) : n + u.length < rawDocument label n (u ++ x :: xs) := by
  induction u generalizing n with
  | nil =>
      rw [List.nil_append, rawDocument_cons_of_not (isLineEnd_eq_false hx), List.length_nil]
      exact le_rawDocument label (n + 1) xs
  | cons c u ih =>
      rw [List.cons_append, rawDocument_cons_of_not (hu c List.mem_cons_self), List.length_cons]
      have := ih (fun c hc => hu c (List.mem_cons_of_mem _ hc)) (n + 1)
      omega

theorem rawDocument_swap {label u ys : List Char} {y : Char} {n : Nat} (hlabel : ∀ c ∈ label, isNamePart c)
    (hy : isNamePart y) (zs : List Char) (h : rawDocument label n (u ++ y :: ys) ≤ n + u.length) :
    rawDocument label n (u ++ zs) = rawDocument label n (u ++ y :: ys) := by
  induction u generalizing n with
  | nil => exact absurd h (Nat.not_le_of_lt (length_lt_rawDocument (by simp) hy n))
  | cons c u ih =>
      rw [List.length_cons] at h
      cases hc : isLineEnd c with
      | false =>
          rw [List.cons_append, rawDocument_cons_of_not hc] at h ⊢
          rw [List.cons_append, rawDocument_cons_of_not hc, ih (by omega)]
      | true =>
          rw [List.cons_append, List.cons_append, rawDocument, rawDocument, hc]
          rw [List.cons_append, rawDocument, hc] at h
          by_cases hodd : ∃ d ∈ u.dropWhile isInset, isNamePart d = false
          · rw [endLine?_append hlabel hodd, endLine?_append hlabel hodd]
            rw [endLine?_append hlabel hodd] at h
            cases he : endLine? label u with
            | some k => rfl
            | none =>
                rw [he] at h
                exact ih (by simpa [Nat.add_assoc, Nat.add_comm 1] using h)
          · exfalso
            have hall : ∀ d ∈ u.dropWhile isInset, isNamePart d := by simpa using hodd
            cases he : endLine? label (u ++ y :: ys) with
            | some k =>
                rw [he] at h
                have hlt := length_lt_of_endLine? hy hall he
                simp only at h
                omega
            | none =>
                rw [he] at h
                refine absurd h (Nat.not_le_of_lt ?_)
                have hu : ∀ d ∈ u, isLineEnd d = false := by
                  intro d hd
                  rw [← List.takeWhile_append_dropWhile (p := isInset) (l := u)] at hd
                  rcases List.mem_append.mp hd with hd | hd
                  · have := List.mem_takeWhile_imp hd
                    simp only [isInset, Bool.or_eq_true, beq_iff_eq] at this
                    rcases this with rfl | rfl <;> rfl
                  · exact isLineEnd_eq_false (hall d hd)
                have hlt : n + 1 + u.length < rawDocument label (n + 1) (u ++ y :: ys) := length_lt_rawDocument hu hy (n + 1)
                simp only
                omega

/-! ### The begin of a here-document -/

/-- Does the line of a here-document end behind a label, after the quote that closes it? -/
def endsHeading (mark : Option Char) (after : List Char) : Bool :=
  (mark.isNone || after.head? == mark) && (if mark.isSome then after.drop 1 else after).head?.any isLineEnd

/-- The begin of a here-document after its blanks and the quote in front of its label, if there is one. -/
def headingFrom (blanks : Nat) (mark : Option Char) (inner : List Char) : Option Heading :=
  let label := inner.takeWhile isNamePart
  if label ≠ [] ∧ endsHeading mark (inner.dropWhile isNamePart) then
    some ⟨label, mark == some '\'', blanks + label.length + if mark.isSome then 2 else 0⟩
  else none

/-- Is it a quote that may stand around a label? -/
def isMark (c : Char) : Bool :=
  c == '"' || c == '\''

theorem heading?_eq (cs : List Char) :
    heading? cs =
      match (cs.dropWhile isInset).head?.filter isMark with
      | some q => headingFrom (cs.takeWhile isInset).length (some q) ((cs.dropWhile isInset).drop 1)
      | none => headingFrom (cs.takeWhile isInset).length none (cs.dropWhile isInset) := by
  have hinset : (fun c => c == ' ' || c == '\t') = isInset := rfl
  have hmark : (fun c => c == '"' || c == '\'') = isMark := rfl
  simp only [heading?, run, hinset, hmark, drop_length_takeWhile]
  cases (cs.dropWhile isInset).head?.filter isMark <;>
    simp [headingFrom, endsHeading, and_assoc]

/-- What follows the new name is what followed the old one, or a blank. -/
def Follows (back back' : List Char) : Prop :=
  back' = back ∨ back'.head? = some ' '

/-- A text is a piece of a name, or its first character that is none stands somewhere. -/
theorem parts_or_exists (v : List Char) :
    (∀ c ∈ v, isNamePart c) ∨ ∃ l d r, v = l ++ d :: r ∧ (∀ c ∈ l, isNamePart c) ∧ isNamePart d = false := by
  cases hd : v.dropWhile isNamePart with
  | nil => exact .inl (List.dropWhile_eq_nil_iff.mp hd)
  | cons d r =>
      refine .inr ⟨v.takeWhile isNamePart, d, r, ?_, fun c hc => List.mem_takeWhile_imp hc, ?_⟩
      · rw [← hd, List.takeWhile_append_dropWhile]
      · have hne : v.dropWhile isNamePart ≠ [] := by rw [hd]; exact List.cons_ne_nil _ _
        have hhead := List.head_dropWhile_not isNamePart hne
        simpa [hd] using hhead

section

variable {old new back back' : List Char}

theorem Named.split_append {name back v : List Char} (h : Named name back) (hv : ∀ c ∈ v, isNamePart c) :
    (v ++ (name ++ back)).takeWhile isNamePart = v ++ name ∧ (v ++ (name ++ back)).dropWhile isNamePart = back := by
  have htake : (v ++ (name ++ back)).takeWhile isNamePart = v ++ name := by
    rw [List.takeWhile_append_of_pos hv, h.takeWhile_eq]
  refine ⟨htake, ?_⟩
  rw [← drop_length_takeWhile, htake, ← List.append_assoc, List.drop_left]

theorem Follows.endsHeading {mark : Option Char} (hf : Follows back back') (hmark : ∀ q ∈ mark, isMark q)
    (h : endsHeading mark back = false) : endsHeading mark back' = false := by
  rcases hf with rfl | hblank
  · exact h
  · cases mark with
    | none => simp [Lexer.endsHeading, hblank, isLineEnd]
    | some q =>
        have hq : ' ' ≠ q := by
          rintro rfl
          exact absurd (hmark ' ' rfl) (by decide)
        simp [Lexer.endsHeading, hblank, hq]

theorem headingFrom_swap (ho : Named old back) (hn : Named new back') (hf : Follows back back') {n : Nat}
    {mark : Option Char} (hmark : ∀ q ∈ mark, isMark q) {v : List Char}
    (h : ∀ hd, headingFrom n mark (v ++ (old ++ back)) = some hd →
      hd.length ≤ n + v.length + if mark.isSome then 1 else 0) :
    headingFrom n mark (v ++ (new ++ back')) = headingFrom n mark (v ++ (old ++ back)) := by
  rcases parts_or_exists v with hv | ⟨l, d, r, rfl, hl, hd⟩
  · have hpos : 0 < old.length := List.length_pos_iff.mpr ho.ne_nil
    have hends : endsHeading mark back = false := by
      by_contra hends
      rw [Bool.not_eq_false] at hends
      have hsome : headingFrom n mark (v ++ (old ++ back)) =
          some ⟨v ++ old, mark == some '\'', n + (v ++ old).length + if mark.isSome then 2 else 0⟩ := by
        rw [headingFrom, (ho.split_append hv).1, (ho.split_append hv).2]
        exact if_pos ⟨by simp [ho.ne_nil], hends⟩
      have hle := h _ hsome
      simp only [List.length_append] at hle
      split at hle <;> omega
    simp only [headingFrom, (ho.split_append hv).1, (ho.split_append hv).2, (hn.split_append hv).1,
      (hn.split_append hv).2, hends, hf.endsHeading hmark hends, Bool.false_eq_true, and_false, if_false]
  · have hsplit (xs : List Char) : (l ++ d :: r ++ xs).takeWhile isNamePart = l ∧
        (l ++ d :: r ++ xs).dropWhile isNamePart = d :: (r ++ xs) := by
      have htake : (l ++ d :: r ++ xs).takeWhile isNamePart = l := by
        rw [List.append_assoc, List.takeWhile_append_of_pos hl, List.cons_append,
          List.takeWhile_cons_of_neg (by simp [hd]), List.append_nil]
      exact ⟨htake, by rw [← drop_length_takeWhile, htake, List.append_assoc, List.drop_left, List.cons_append]⟩
    have hends : endsHeading mark (d :: (r ++ (new ++ back'))) = endsHeading mark (d :: (r ++ (old ++ back))) := by
      obtain ⟨y, ys, rfl, hy⟩ := ho.exists_cons
      obtain ⟨z, zs, rfl, hz⟩ := hn.exists_cons
      cases mark with
      | none => rfl
      | some q =>
          cases r with
          | nil =>
              simp [endsHeading, isLineEnd_eq_false (isNamePart_of_isNameStart hy),
                isLineEnd_eq_false (isNamePart_of_isNameStart hz)]
          | cons e r => rfl
    simp only [headingFrom, (hsplit _).1, (hsplit _).2, hends]

theorem heading?_swap (ho : Named old back) (hn : Named new back') (hf : Follows back back') {u : List Char}
    (h : ∀ hd, heading? (u ++ (old ++ back)) = some hd → hd.length ≤ u.length) :
    heading? (u ++ (new ++ back')) = heading? (u ++ (old ++ back)) := by
  have hlen := congrArg List.length (List.takeWhile_append_dropWhile (p := isInset) (l := u))
  rw [List.length_append] at hlen
  have hsplit {name b : List Char} (hname : Named name b) :
      (u ++ (name ++ b)).takeWhile isInset = u.takeWhile isInset ∧
        (u ++ (name ++ b)).dropWhile isInset = u.dropWhile isInset ++ (name ++ b) := by
    obtain ⟨y, ys, rfl, hy⟩ := hname.exists_cons
    exact inset_append_cons (isNamePart_of_isNameStart hy) u (ys ++ b)
  simp only [heading?_eq, (hsplit ho).1, (hsplit ho).2, (hsplit hn).1, (hsplit hn).2] at h ⊢
  cases hr : u.dropWhile isInset with
  | nil =>
      have hnone {name b : List Char} (hname : Named name b) : (name ++ b).head?.filter isMark = none := by
        obtain ⟨y, ys, rfl, hy⟩ := hname.exists_cons
        have hy := isNamePart_of_isNameStart hy
        simp [isMark, ne_of_isNamePart hy (d := '"') (by decide), ne_of_isNamePart hy (d := '\'') (by decide)]
      simp only [hr, List.nil_append, hnone ho, hnone hn] at h hlen ⊢
      exact headingFrom_swap ho hn hf (by simp) (v := []) fun hd hhd => by
        have := h hd hhd
        simp only [List.length_nil] at hlen ⊢
        simp
        omega
  | cons q v =>
      simp only [hr, List.cons_append, List.head?_cons] at h hlen ⊢
      cases hq : isMark q with
      | true =>
          simp only [Option.filter_some, hq, if_true, List.drop_one, List.tail_cons] at h ⊢
          exact headingFrom_swap ho hn hf (by simpa using hq) fun hd hhd => by
            have := h hd hhd
            simp only [List.length_cons] at hlen
            simp
            omega
      | false =>
          simp only [Option.filter_some, hq, Bool.false_eq_true, if_false] at h ⊢
          exact headingFrom_swap ho hn hf (by simp) (v := q :: v) fun hd hhd => by
            have := h hd hhd
            simp only [List.length_cons] at hlen ⊢
            simp
            omega

end

/-! ### Strings that take code -/

/-- A character that is no quote and escapes nothing leaves the search for a quote where it is. -/
theorem isClosed_append_cons {q y : Char} (hq : q ≠ '\\') (hy : y ≠ '\\') (hyq : y ≠ q) (u r : List Char) :
    isClosed q (u ++ y :: r) = (isClosed q u || isClosed q r) := by
  induction hlen : u.length using Nat.strong_induction_on generalizing u with
  | _ len ih =>
      rcases u with _ | ⟨c, u⟩
      · simp [isClosed, isClosed_cons hy, hyq]
      rw [List.length_cons] at hlen
      by_cases hc : c = '\\'
      · subst hc
        rcases u with _ | ⟨d, u⟩
        · simp [isClosed, hq.symm]
        · rw [List.length_cons] at hlen
          exact ih u.length (by omega) u rfl
      · rw [List.cons_append, isClosed_cons hc, isClosed_cons hc, ih u.length (by omega) u rfl, Bool.or_assoc]

theorem isClosed_append_name {q : Char} (hq : q ∈ ['"', '\x60']) {name : List Char} (hne : name ≠ [])
    (hpart : ∀ c ∈ name, isNamePart c) (u back : List Char) :
    isClosed q (u ++ (name ++ back)) = (isClosed q u || isClosed q back) := by
  have hq' : q ≠ '\\' := by
    rintro rfl
    exact absurd hq (by decide)
  have hqm : q ∈ marks := by
    simp only [List.mem_cons, List.not_mem_nil, or_false] at hq
    rcases hq with rfl | rfl <;> decide
  induction name generalizing u with
  | nil => exact absurd rfl hne
  | cons a name ih =>
      have ha := hpart a List.mem_cons_self
      rw [List.cons_append,
        isClosed_append_cons hq' (ne_of_isNamePart ha (by decide)) (ne_of_isNamePart ha hqm)]
      cases name with
      | nil => rfl
      | cons b name =>
          have hback := ih (List.cons_ne_nil _ _) (fun c hc => hpart c (List.mem_cons_of_mem _ hc)) []
          rw [List.nil_append, isClosed, Bool.false_or] at hback
          rw [hback]

/-! ### Numbers and tags -/

theorem toLower_ne {c d e : Char} (he : e.val = d.val - 32) (hd : c ≠ d) (hce : c ≠ e) : c.toLower ≠ d := by
  rintro rfl
  unfold Char.toLower at he hd
  split at he
  · exact hce (Char.ext (by simpa using he.symm))
  · rename_i hcase
    rw [dif_neg hcase] at hd
    exact hd rfl

/-- The characters with which a number may go on, its digits apart. -/
def numberMarks : List Char :=
  ['.', '+', '-', 'e', 'E'] ++ (['x', 'b', 'o'] ++ ['X', 'B', 'O'])

def haltsNumber (c : Char) : Bool :=
  !(isHexPart c || numberMarks.contains c)

theorem run_append_of_halts {p : Char → Bool} {h : Char} (hp : p h = false) (w r : List Char) :
    run p (w ++ h :: r) = run p w := by
  induction w with
  | nil => simp [run, hp]
  | cons c w ih =>
      simp only [run, List.cons_append, List.takeWhile_cons] at ih ⊢
      split
      · rw [List.length_cons, List.length_cons, ih]
      · rfl

theorem run_le_length (p : Char → Bool) (cs : List Char) : run p cs ≤ cs.length :=
  (List.takeWhile_sublist p).length_le

theorem fractionLength_le (cs : List Char) : fractionLength cs ≤ cs.length := by
  fun_cases fractionLength cs with
  | case1 cs hzero => exact Nat.zero_le _
  | case2 cs hrun =>
      have := run_le_length isDigitPart cs
      rw [List.length_cons]
      omega
  | case3 => exact Nat.zero_le _

section

variable {h : Char} (hh : haltsNumber h)

include hh

theorem not_isHexPart_of_halts : isHexPart h = false ∧ isDigitPart h = false := by
  simp only [haltsNumber, Bool.not_eq_true', Bool.or_eq_false_iff] at hh
  refine ⟨hh.1, ?_⟩
  by_contra hd
  rw [Bool.not_eq_false] at hd
  simp [isHexPart, hd] at hh

theorem ne_of_halts {d : Char} (hd : d ∈ numberMarks) : h ≠ d := by
  rintro rfl
  simp only [haltsNumber, Bool.not_eq_true', Bool.or_eq_false_iff] at hh
  rw [List.contains_iff_mem.mpr hd] at hh
  cases hh.2

theorem fractionLength_append (w r : List Char) : fractionLength (w ++ h :: r) = fractionLength w := by
  cases w with
  | nil =>
      have hdot : h ≠ '.' := ne_of_halts hh (by decide)
      simp [fractionLength, hdot]
  | cons d w =>
      by_cases hd : d = '.'
      · subst hd
        rw [List.cons_append, fractionLength, fractionLength, run_append_of_halts (not_isHexPart_of_halts hh).2]
      · simp [fractionLength, hd]

theorem exponentLength_append (w r : List Char) : exponentLength (w ++ h :: r) = exponentLength w := by
  cases w with
  | nil => simp [exponentLength, ne_of_halts hh (d := 'e') (by decide), ne_of_halts hh (d := 'E') (by decide)]
  | cons e w =>
      have hsign : (h == '+' || h == '-') = false := by
        simp [ne_of_halts hh (d := '+') (by decide), ne_of_halts hh (d := '-') (by decide)]
      have hsigns : run (fun c => c == '+' || c == '-') ((w ++ h :: r).take 1) =
          run (fun c => c == '+' || c == '-') (w.take 1) := by
        cases w with
        | nil => simp [run, hsign]
        | cons s w => simp
      have hle : run (fun c => c == '+' || c == '-') (w.take 1) ≤ w.length :=
        (run_le_length _ _).trans (by simp)
      rw [List.cons_append, exponentLength, exponentLength, hsigns, List.drop_append_of_le_length hle, run_append_of_halts (not_isHexPart_of_halts hh).2]

theorem numberMore_append (c : Char) (w r : List Char) : numberMore c (w ++ h :: r) = numberMore c w := by
  have hmark {d e : Char} (hd : d ∈ ['x', 'b', 'o']) (he : e.val = d.val - 32) (he' : e ∈ ['X', 'B', 'O']) :
      h.toLower ≠ d :=
    toLower_ne he (ne_of_halts hh (List.mem_append_right _ (List.mem_append_left _ hd)))
      (ne_of_halts hh (List.mem_append_right _ (List.mem_append_right _ he')))
  have hx := hmark (d := 'x') (e := 'X') (by decide) (by decide) (by decide)
  have hb := hmark (d := 'b') (e := 'B') (by decide) (by decide) (by decide)
  have ho := hmark (d := 'o') (e := 'O') (by decide) (by decide) (by decide)
  obtain ⟨hhex, hdigit⟩ := not_isHexPart_of_halts hh
  have hdecimal :
      run isDigitPart (w ++ h :: r) = run isDigitPart w ∧
      fractionLength ((w ++ h :: r).drop (run isDigitPart w)) = fractionLength (w.drop (run isDigitPart w)) ∧
      ∀ k ≤ w.length, exponentLength ((w ++ h :: r).drop k) = exponentLength (w.drop k) := by
    refine ⟨run_append_of_halts hdigit w r, ?_, fun k hk => ?_⟩
    · rw [List.drop_append_of_le_length (run_le_length _ _), fractionLength_append hh]
    · rw [List.drop_append_of_le_length hk, exponentLength_append hh]
  have hfraction : run isDigitPart w + (if c == '.' then 0 else fractionLength (w.drop (run isDigitPart w))) ≤
      w.length := by
    have hrun := run_le_length isDigitPart w
    have hle := fractionLength_le (w.drop (run isDigitPart w))
    rw [List.length_drop] at hle
    split <;> omega
  obtain ⟨hwhole, hfrac, hexp⟩ := hdecimal
  simp only [numberMore, hwhole, hfrac, hexp _ hfraction]
  cases w with
  | nil =>
      have hblank : ' '.toLower = ' ' := rfl
      simp [hx, hb, ho, hblank]
  | cons d w =>
      simp only [List.cons_append, List.head?_cons, List.drop_one, List.tail_cons, run_append_of_halts hhex,
        run_append_of_halts hdigit]

end

end Namesake.Php.Lexer
