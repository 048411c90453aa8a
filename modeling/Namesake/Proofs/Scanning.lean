import Mathlib.Data.List.TakeWhile
import Mathlib.Tactic
import Namesake.Php
import Namesake.Proofs.Utf8

/-! The tokens of a text, read step by step. Outside the code a text without an opening tag is cut into pieces of text,
the last of which ends at the last character that is not a blank, or further; in code, blanks give no tokens, and a name
that is put together from identifiers gives one word for each of them. -/

namespace Namesake.Php

open Text

namespace Lexer

/-- The tokens of some characters from an offset on. -/
def tokensFrom (modes : List Mode) (offset : Nat) (cs : List Char) : List Token :=
  (scan modes offset #[] cs).toList

theorem scan_eq (modes : List Mode) (offset : Nat) (found : Array Token) (cs : List Char) :
    (scan modes offset found cs).toList = found.toList ++ tokensFrom modes offset cs := by
  induction h : cs.length using Nat.strong_induction_on generalizing modes offset found cs with
  | _ n ih =>
    subst h
    cases cs with
    | nil => simp [tokensFrom, scan]
    | cons c cs =>
        have hlt : (cs.drop (step modes c cs).more).length < (c :: cs).length := by
          rw [List.length_drop, List.length_cons]
          omega
        rw [tokensFrom, scan, scan, ih _ hlt _ _ _ _ rfl]
        conv => rhs; rw [ih _ hlt _ _ _ _ rfl]
        cases (step modes c cs).lexeme <;> simp

@[simp] theorem tokensFrom_nil (modes : List Mode) (offset : Nat) : tokensFrom modes offset [] = [] := by
  rw [tokensFrom, scan]

/-- The tokens of some characters are that of the first step, if it gives one, and those of what is left. -/
theorem tokensFrom_cons (modes : List Mode) (offset : Nat) (c : Char) (cs : List Char) :
    let s := step modes c cs
    let stop := offset + c.utf8Size + width (cs.take s.more)
    tokensFrom modes offset (c :: cs) =
      (s.lexeme.map fun l => ⟨l, offset, stop⟩).toList ++ tokensFrom s.modes stop (cs.drop s.more) := by
  intro s stop
  rw [tokensFrom, scan, scan_eq]
  cases s.lexeme <;> simp [s, stop]

theorem width_eq (cs : List Char) : width cs = (Utf8.encodeChars cs).length := by
  have hfold (cs : List Char) (n : Nat) : cs.foldl (fun n c => n + c.utf8Size) n = n + (Utf8.encodeChars cs).length := by
    induction cs generalizing n with
    | nil => rfl
    | cons c cs ih =>
        rw [List.foldl_cons, ih, Utf8.encodeChars, Utf8.encodeChars, List.flatMap_cons, List.length_append,
          String.length_utf8EncodeChar, Nat.add_assoc]
  rw [width, hfold, Nat.zero_add]

@[simp] theorem width_append (cs ds : List Char) : width (cs ++ ds) = width cs + width ds := by
  simp only [width_eq, Utf8.encodeChars_append, List.length_append]

@[simp] theorem width_cons (c : Char) (cs : List Char) : width (c :: cs) = c.utf8Size + width cs := by
  rw [width_eq, width_eq, Utf8.encodeChars, List.flatMap_cons, List.length_append, String.length_utf8EncodeChar]
  rfl

theorem drop_run (p : Char → Bool) (cs : List Char) : cs.drop (run p cs) = cs.dropWhile p := by
  induction cs with
  | nil => rfl
  | cons c cs ih =>
      by_cases hc : p c = true
      · rw [run, List.takeWhile_cons_of_pos hc, List.dropWhile_cons_of_pos hc]
        exact ih
      · rw [run, List.takeWhile_cons_of_neg hc, List.dropWhile_cons_of_neg hc]
        rfl

theorem take_run (p : Char → Bool) (cs : List Char) : cs.take (run p cs) = cs.takeWhile p :=
  (List.prefix_iff_eq_take.mp (List.takeWhile_prefix p)).symm

/-! ### Outside the code -/

/-- No opening tag is among the characters. -/
def Tagless : List Char → Prop
  | '<' :: '?' :: _ => False
  | _ :: cs => Tagless cs
  | [] => True

variable {c : Char} {cs pre back : List Char}

theorem tagless_cons_of_ne (h : c ≠ '<') : Tagless (c :: cs) ↔ Tagless cs := by
  rw [Tagless.eq_2]
  intro _ hc _
  exact h hc

theorem tagless_lt : Tagless ('<' :: cs) ↔ cs.head? ≠ some '?' ∧ Tagless cs := by
  cases cs with
  | nil => simp [Tagless]
  | cons d cs =>
      by_cases hd : d = '?'
      · subst hd
        simp [Tagless]
      · rw [Tagless.eq_2]
        · simp [hd]
        · rintro _ _ ⟨⟩
          exact absurd rfl hd

theorem tagless_append_of_notMem (h : '<' ∉ pre) : Tagless (pre ++ cs) ↔ Tagless cs := by
  induction pre with
  | nil => rfl
  | cons c pre ih =>
      rw [List.mem_cons, not_or] at h
      rw [List.cons_append, tagless_cons_of_ne (Ne.symm h.1), ih h.2]

theorem tagless_of_notMem (h : '<' ∉ cs) : Tagless cs := by
  rw [← List.append_nil cs]
  exact (tagless_append_of_notMem h).mpr trivial

theorem tagless_append (h : back.head? ≠ some '?') : Tagless (pre ++ back) ↔ Tagless pre ∧ Tagless back := by
  induction pre with
  | nil => simp [Tagless]
  | cons c pre ih =>
      rw [List.cons_append]
      by_cases hc : c = '<'
      · subst hc
        rw [tagless_lt, tagless_lt, ih, and_assoc]
        refine and_congr_left fun _ => ?_
        cases pre with
        | nil => simpa using h
        | cons d pre => rfl
      · rw [tagless_cons_of_ne hc, tagless_cons_of_ne hc, ih]

theorem Tagless.of_append (h : Tagless (pre ++ back)) : Tagless pre := by
  induction pre with
  | nil => trivial
  | cons c pre ih =>
      rw [List.cons_append] at h
      by_cases hc : c = '<'
      · subst hc
        obtain ⟨hhead, hrest⟩ := tagless_lt.mp h
        refine tagless_lt.mpr ⟨?_, ih hrest⟩
        cases pre with
        | nil => nofun
        | cons d pre => exact hhead
      · exact (tagless_cons_of_ne hc).mpr (ih ((tagless_cons_of_ne hc).mp h))

/-! The steps outside the code. -/

variable {outer : List Mode} {offset : Nat}

theorem tokensFrom_outside_blank (h : isBlank c = true) :
    tokensFrom (.outside :: outer) offset (c :: cs) = tokensFrom (.outside :: outer) (offset + c.utf8Size) cs := by
  have hstep : step (.outside :: outer) c cs = ⟨none, 0, .outside :: outer⟩ := by
    have hc : c ≠ '<' := by
      rintro rfl
      exact absurd h (by decide)
    rw [step, outsideStep, if_pos h]
    · exact hc
    · intro _ hc' _
      exact hc hc'
  rw [tokensFrom_cons, hstep]
  rfl

theorem tokensFrom_outside_lt (h : cs.head? ≠ some '?') :
    tokensFrom (.outside :: outer) offset ('<' :: cs) =
      ⟨.text, offset, offset + 1⟩ :: tokensFrom (.outside :: outer) (offset + 1) cs := by
  have hstep : step (.outside :: outer) '<' cs = ⟨some .text, 0, .outside :: outer⟩ := by
    rw [step, outsideStep]
    rintro _ rfl
    exact h rfl
  rw [tokensFrom_cons, hstep]
  rfl

theorem tokensFrom_outside_piece (h : c ≠ '<') (hblank : isBlank c = false) :
    let piece := c :: cs.takeWhile (· != '<')
    tokensFrom (.outside :: outer) offset (c :: cs) = ⟨.text, offset, offset + width piece⟩ ::
      tokensFrom (.outside :: outer) (offset + width piece) (cs.dropWhile (· != '<')) := by
  intro piece
  have hstep : step (.outside :: outer) c cs = ⟨some .text, run (· != '<') cs, .outside :: outer⟩ := by
    rw [step, outsideStep, if_neg (by rw [hblank]; nofun)]
    · exact h
    · intro _ hc' _
      exact h hc'
  rw [tokensFrom_cons, hstep]
  dsimp only
  rw [take_run, drop_run, width_cons, Nat.add_assoc]
  rfl

theorem tagless_dropWhile : Tagless (cs.dropWhile (· != '<')) ↔ Tagless cs := by
  have hpre : '<' ∉ cs.takeWhile (· != '<') := by
    intro h
    have hne := List.mem_takeWhile_imp h
    simp at hne
  conv => rhs; rw [← @List.takeWhile_append_dropWhile _ (· != '<') cs]
  exact (tagless_append_of_notMem hpre).symm

/-- After a piece of text an angle bracket is next, if anything is left. -/
theorem dropWhile_ne_lt (cs : List Char) :
    cs.dropWhile (· != '<') = [] ∨ (cs.dropWhile (· != '<')).head? = some '<' := by
  have hhead := List.head?_dropWhile_not (· != '<') cs
  cases h : cs.dropWhile (· != '<') with
  | nil => exact .inl rfl
  | cons d rest =>
      rw [h] at hhead
      have hd : d = '<' := by simpa using hhead
      rw [hd]
      exact .inr rfl

/-- What is left after a piece of text is shorter. -/
theorem length_dropWhile_lt (p : Char → Bool) (c : Char) (cs : List Char) :
    (cs.dropWhile p).length < (c :: cs).length := by
  rw [← drop_run, List.length_drop, List.length_cons]
  omega

/-- An opening tag gives a token that is no text. -/
theorem exists_enter (h : ¬ Tagless cs) (outer : List Mode) (offset : Nat) :
    ∃ t ∈ tokensFrom (.outside :: outer) offset cs, t.lexeme = .enter := by
  induction hn : cs.length using Nat.strong_induction_on generalizing cs offset with
  | _ n ih =>
    subst hn
    cases cs with
    | nil => exact absurd trivial h
    | cons c cs =>
        by_cases hc : c = '<'
        · subst hc
          by_cases htag : cs.head? = some '?'
          · obtain ⟨rest, rfl⟩ := List.head?_eq_some_iff.mp htag
            rw [tokensFrom_cons]
            exact ⟨_, List.mem_append_left _ List.mem_cons_self, rfl⟩
          · have hrest : ¬ Tagless cs := fun hcs => h (tagless_lt.mpr ⟨htag, hcs⟩)
            obtain ⟨t, ht, hlexeme⟩ := ih cs.length (Nat.lt_succ_self _) hrest (offset + 1) rfl
            rw [tokensFrom_outside_lt htag]
            exact ⟨t, List.mem_cons_of_mem _ ht, hlexeme⟩
        · have hrest : ¬ Tagless cs := fun hcs => h ((tagless_cons_of_ne hc).mpr hcs)
          by_cases hblank : isBlank c = true
          · rw [tokensFrom_outside_blank hblank]
            exact ih cs.length (Nat.lt_succ_self _) hrest _ rfl
          · rw [tokensFrom_outside_piece hc (Bool.eq_false_iff.mpr hblank)]
            obtain ⟨t, ht, hlexeme⟩ := ih _ (length_dropWhile_lt _ c cs) (mt tagless_dropWhile.mp hrest) _ rfl
            exact ⟨t, List.mem_cons_of_mem _ ht, hlexeme⟩

/-- The tokens of some characters are pieces of text, which end where only blanks follow; such blanks follow a piece
only if it is an angle bracket. -/
structure Pieces (cs : List Char) (offset : Nat) (ts : List Token) (front back : List Char) : Prop where
  text : ∀ t ∈ ts, t.lexeme = .text
  split : cs = front ++ back
  solid : front = [] ∨ ∃ c ∈ front, isBlank c = false
  blank : ∀ c ∈ back, isBlank c = true
  full : back = [] ∨ front = [] ∨ front.getLast? = some '<'
  stop : ts.getLast?.map Token.stop = if front = [] then none else some (offset + width front)

namespace Pieces

variable {ts : List Token} {front : List Char}

theorem cons_blank (h : Pieces cs (offset + c.utf8Size) ts front back) (hc : isBlank c = true) :
    ∃ front back, Pieces (c :: cs) offset ts front back := by
  obtain ⟨htext, rfl, hsolid, hblank, hfull, hstop⟩ := h
  by_cases hfront : front = []
  · subst hfront
    refine ⟨[], c :: back, htext, rfl, .inl rfl, List.forall_mem_cons.mpr ⟨hc, hblank⟩, .inr (.inl rfl), ?_⟩
    rw [hstop, if_pos rfl, if_pos rfl]
  · obtain ⟨d, rest, rfl⟩ := List.exists_cons_of_ne_nil hfront
    refine ⟨c :: d :: rest, back, htext, rfl, ?_, hblank, ?_, ?_⟩
    · obtain ⟨x, hx, hxblank⟩ := hsolid.resolve_left hfront
      exact .inr ⟨x, List.mem_cons_of_mem _ hx, hxblank⟩
    · refine hfull.imp_right fun hfull => .inr ?_
      rw [List.getLast?_cons_cons]
      exact hfull.resolve_left hfront
    · rw [hstop, if_neg hfront, if_neg (List.cons_ne_nil _ _), width_cons, width_cons, width_cons, Nat.add_assoc]

/-- One more piece in front. It ends before an angle bracket or at the end, or is one. -/
theorem append {piece : List Char} (h : Pieces cs (offset + width piece) ts front back)
    (hpiece : ∃ c ∈ piece, isBlank c = false)
    (hend : cs = [] ∨ cs.head? = some '<' ∨ piece.getLast? = some '<') :
    Pieces (piece ++ cs) offset (⟨.text, offset, offset + width piece⟩ :: ts) (piece ++ front) back := by
  obtain ⟨htext, rfl, -, hblank, hfull, hstop⟩ := h
  obtain ⟨x, hx, hxblank⟩ := hpiece
  have hne : piece ++ front ≠ [] := List.append_ne_nil_of_left_ne_nil (List.ne_nil_of_mem hx) _
  refine ⟨List.forall_mem_cons.mpr ⟨rfl, htext⟩, (List.append_assoc _ _ _).symm,
    .inr ⟨x, List.mem_append_left _ hx, hxblank⟩, hblank, ?_, ?_⟩
  · by_cases hfront : front = []
    · subst hfront
      rcases hend with hnil | hlt | hlt
      · exact .inl hnil
      · exact absurd (hblank '<' (List.mem_of_head? hlt)) (by decide)
      · rw [List.append_nil]
        exact .inr (.inr hlt)
    · refine hfull.imp_right fun hfull => .inr ?_
      rw [List.getLast?_append_of_ne_nil _ hfront]
      exact hfull.resolve_left hfront
  · rw [if_neg hne]
    by_cases hfront : front = []
    · subst hfront
      rw [if_pos rfl, Option.map_eq_none_iff, List.getLast?_eq_none_iff] at hstop
      rw [hstop, List.append_nil]
      rfl
    · rw [if_neg hfront] at hstop
      cases ts with
      | nil => cases hstop
      | cons t ts =>
          rw [List.getLast?_cons_cons, hstop, width_append, Nat.add_assoc]

theorem front_eq_nil_iff (h : Pieces cs offset ts front back) : front = [] ↔ ∀ c ∈ cs, isBlank c = true := by
  obtain ⟨-, rfl, hsolid, hblank, -, -⟩ := h
  constructor
  · rintro rfl
    exact hblank
  · intro hcs
    by_contra hfront
    obtain ⟨c, hc, hcblank⟩ := hsolid.resolve_left hfront
    rw [hcs c (List.mem_append_left _ hc)] at hcblank
    cases hcblank

/-- The pieces reach the end if something solid follows the last angle bracket. -/
theorem back_eq_nil {head tail : List Char} (h : Pieces (head ++ tail) offset ts front back) (hlt : '<' ∉ tail)
    (hsolid : ∃ c ∈ tail, isBlank c = false) : back = [] := by
  by_contra hback
  obtain ⟨c, hc, hcblank⟩ := hsolid
  -- a blank back would hold all that follows the last angle bracket
  have hoverlap (as : List Char) : back ≠ as ++ tail := by
    rintro rfl
    rw [h.blank c (List.mem_append_right _ hc)] at hcblank
    cases hcblank
  rcases h.full with hnil | hfront | hlast
  · exact hback hnil
  · have hsplit := h.split
    rw [hfront] at hsplit
    exact hoverlap head hsplit.symm
  · rcases List.append_eq_append_iff.mp h.split with ⟨as, hfront, htail⟩ | ⟨bs, -, hbs⟩
    · rw [hfront] at hlast
      by_cases has : as = []
      · rw [has, List.nil_append] at htail
        exact hoverlap [] htail.symm
      · rw [List.getLast?_append_of_ne_nil _ has] at hlast
        rw [htail] at hlt
        exact hlt (List.mem_append_left _ (List.mem_of_getLast? hlast))
    · exact hoverlap bs hbs

end Pieces

/-- Without an opening tag there are pieces of text alone. -/
theorem exists_pieces (h : Tagless cs) (outer : List Mode) (offset : Nat) :
    ∃ front back, Pieces cs offset (tokensFrom (.outside :: outer) offset cs) front back := by
  induction hn : cs.length using Nat.strong_induction_on generalizing cs offset with
  | _ n ih =>
    subst hn
    cases cs with
    | nil => exact ⟨[], [], by simp, rfl, .inl rfl, List.forall_mem_nil _, .inl rfl, by simp⟩
    | cons c cs =>
        by_cases hc : c = '<'
        · subst hc
          obtain ⟨hhead, hrest⟩ := tagless_lt.mp h
          obtain ⟨front, back, hpieces⟩ := ih cs.length (Nat.lt_succ_self _) hrest (offset + 1) rfl
          rw [tokensFrom_outside_lt hhead]
          have hlt : Pieces (['<'] ++ cs) offset _ (['<'] ++ front) back :=
            hpieces.append ⟨'<', List.mem_cons_self, by decide⟩ (.inr (.inr rfl))
          exact ⟨_, _, hlt⟩
        · have hrest := (tagless_cons_of_ne hc).mp h
          by_cases hblank : isBlank c = true
          · rw [tokensFrom_outside_blank hblank]
            obtain ⟨front, back, hpieces⟩ := ih cs.length (Nat.lt_succ_self _) hrest (offset + c.utf8Size) rfl
            exact hpieces.cons_blank hblank
          · rw [tokensFrom_outside_piece hc (Bool.eq_false_iff.mpr hblank)]
            obtain ⟨front, back, hpieces⟩ :=
              ih _ (length_dropWhile_lt _ c cs) (tagless_dropWhile.mpr hrest)
                (offset + width (c :: cs.takeWhile (· != '<'))) rfl
            have hsplit : (c :: cs.takeWhile (· != '<')) ++ cs.dropWhile (· != '<') = c :: cs := by
              rw [List.cons_append, List.takeWhile_append_dropWhile]
            have happend := hpieces.append ⟨c, List.mem_cons_self, Bool.eq_false_iff.mpr hblank⟩
              ((dropWhile_ne_lt cs).imp_right Or.inl)
            rw [hsplit] at happend
            exact ⟨_, _, happend⟩

/-! ### In code -/

section Code

variable {depth : Nat} {rest : List Char}

theorem tokensFrom_code_skip (h : ∀ c ∈ cs, (isBlank c || isGap c) = true) (depth : Nat) (outer : List Mode)
    (offset : Nat) (rest : List Char) : tokensFrom (.code depth :: outer) offset (cs ++ rest) =
      tokensFrom (.code depth :: outer) (offset + width cs) rest := by
  induction cs generalizing offset with
  | nil => rfl
  | cons c cs ih =>
      obtain ⟨hc, hcs⟩ := List.forall_mem_cons.mp h
      have hstep : step (.code depth :: outer) c (cs ++ rest) = ⟨none, 0, .code depth :: outer⟩ := by
        rw [step, codeStep, if_pos hc]
      rw [List.cons_append, tokensFrom_cons, hstep, width_cons, ← Nat.add_assoc]
      exact ih hcs _

def wordAt (offset : Nat) (cs : List Char) : Token :=
  ⟨.word (String.ofList (cs.map Char.toLower)), offset, offset + width cs⟩

theorem tokensFrom_code_word (hc : isNameStart c = true) (hskip : (isBlank c || isGap c) = false)
    (hcs : ∀ d ∈ cs, isNamePart d = true) (hrest : rest.head?.any isNamePart = false) :
    tokensFrom (.code depth :: outer) offset (c :: cs ++ rest) =
      wordAt offset (c :: cs) :: tokensFrom (.code depth :: outer) (offset + width (c :: cs)) rest := by
  have htake : (cs ++ rest).takeWhile isNamePart = cs := by
    rw [List.takeWhile_append_of_pos hcs]
    cases rest with
    | nil => exact List.append_nil cs
    | cons d rest =>
        rw [List.takeWhile_cons_of_neg (by simpa using hrest), List.append_nil]
  have hstep : step (.code depth :: outer) c (cs ++ rest) =
      ⟨some (.word (String.ofList ((c :: cs).map Char.toLower))), cs.length, .code depth :: outer⟩ := by
    rw [step, codeStep, if_neg (by rw [hskip]; nofun), if_pos hc]
    dsimp only
    rw [htake]
  rw [List.cons_append, tokensFrom_cons, hstep]
  dsimp only
  rw [List.take_left, List.drop_left, Nat.add_assoc, ← width_cons]
  rfl

theorem tokensFrom_code_separator : tokensFrom (.code depth :: outer) offset ('\\' :: rest) =
    ⟨.separator, offset, offset + 1⟩ :: tokensFrom (.code depth :: outer) (offset + 1) rest := by
  have hstep : step (.code depth :: outer) '\\' rest = ⟨some .separator, 0, .code depth :: outer⟩ :=
    signStep_separator depth outer rest
  rw [tokensFrom_cons, hstep]
  rfl

theorem tokensFrom_code_semicolon : tokensFrom (.code depth :: outer) offset (';' :: rest) =
    ⟨.semicolon, offset, offset + 1⟩ :: tokensFrom (.code depth :: outer) (offset + 1) rest := by
  have hstep : step (.code depth :: outer) ';' rest = ⟨some .semicolon, 0, .code depth :: outer⟩ :=
    signStep_semicolon depth outer rest
  rw [tokensFrom_cons, hstep]
  rfl

end Code

end Lexer

/-- An identifier of ASCII letters, digits and underscores. -/
def isIdentifier (s : String) : Bool :=
  match s.toList with
  | [] => false
  | c :: cs => (c == '_' || c.isAlpha) && cs.all fun d => d == '_' || d.isAlphanum

end Namesake.Php
