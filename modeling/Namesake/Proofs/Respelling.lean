import Namesake.Proofs.HeaderText

/-! A namespace is written out behind the keyword of a clause. The scanner reads its segments back, whatever follows, and
no string and no comment of the text ends in it. -/

namespace Namesake.Php

open Lexer Syntax Text

variable {s : String} {segments : List String} {rest : List Char}

/-! ### Characters of a namespace -/

theorem parts_of_isIdentifier (h : isIdentifier s = true) : s.toList ≠ [] ∧ ∀ c ∈ s.toList, isNamePart c := by
  have hnamed : Named s.toList [] := named_of_isIdentifier h nofun
  exact ⟨hnamed.ne_nil, hnamed.part⟩

theorem star_notMem (h : isIdentifier s = true) : '*' ∉ s.toList := by
  intro hmem
  exact absurd ((parts_of_isIdentifier h).2 '*' hmem) (by decide)

theorem star_notMem_further (h : ∀ s ∈ segments, isIdentifier s = true) : '*' ∉ further segments := by
  intro hmem
  obtain ⟨s, hs, hmem⟩ := List.mem_flatMap.mp hmem
  rcases List.mem_cons.mp hmem with hstar | hmem
  · cases hstar
  · exact star_notMem (h s hs) hmem

theorem isClosed_single {q m : Char} (hq : q ∈ ['"', '\x60']) (hm : m ∈ ['\\', ' ']) : isClosed q [m] = false := by
  simp only [List.mem_cons, List.not_mem_nil, or_false] at hq hm
  rcases hq with rfl | rfl <;> rcases hm with rfl | rfl <;> rfl

/-- No string ends in an identifier or in the mark in front of it. -/
theorem isClosed_segment {q m : Char} (hq : q ∈ ['"', '\x60']) (hm : m ∈ ['\\', ' ']) {s : String}
    (hs : isIdentifier s = true) (rest : List Char) : isClosed q ([m] ++ (s.toList ++ rest)) = isClosed q rest := by
  obtain ⟨hne, hpart⟩ := parts_of_isIdentifier hs
  rw [isClosed_append_name hq hne hpart, isClosed_single hq hm, Bool.false_or]

/-- No string ends in further segments of a name. -/
theorem isClosed_further {q : Char} (hq : q ∈ ['"', '\x60']) (h : ∀ s ∈ segments, isIdentifier s = true) (rest : List Char) :
    isClosed q (further segments ++ rest) = isClosed q rest := by
  induction segments with
  | nil => rfl
  | cons s segments ih =>
      obtain ⟨hs, hsegments⟩ := List.forall_mem_cons.mp h
      have hchars : further (s :: segments) ++ rest = ['\\'] ++ (s.toList ++ (further segments ++ rest)) := by
        rw [further, List.flatMap_cons, ← further]
        simp only [List.cons_append, List.append_assoc, List.nil_append]
      rw [hchars, isClosed_segment hq (by decide) hs, ih hsegments]

/-- What stands behind the keyword of a clause that is written anew, up to what ends its header. -/
def spelled (s : String) (segments : List String) : List Char :=
  ' ' :: (s.toList ++ further segments)

theorem isClosed_spelled {q : Char} (hq : q ∈ ['"', '\x60']) (h : ∀ t ∈ s :: segments, isIdentifier t = true) (rest : List Char) :
    isClosed q (spelled s segments ++ rest) = isClosed q rest := by
  obtain ⟨hs, hsegments⟩ := List.forall_mem_cons.mp h
  have hchars : spelled s segments ++ rest = [' '] ++ (s.toList ++ (further segments ++ rest)) := by
    simp only [spelled, List.cons_append, List.append_assoc, List.nil_append]
  rw [hchars, isClosed_segment hq (by decide) hs, isClosed_further hq hsegments]

theorem star_notMem_spelled (h : ∀ t ∈ s :: segments, isIdentifier t = true) : '*' ∉ spelled s segments := by
  obtain ⟨hs, hsegments⟩ := List.forall_mem_cons.mp h
  rw [spelled, List.mem_cons, List.mem_append]
  rintro (hstar | hmem | hmem)
  · cases hstar
  · exact star_notMem hs hmem
  · exact star_notMem_further hsegments hmem

/-! ### Its tokens -/

/-- The tokens of a namespace that is written out. -/
def spelledTokens (offset : Nat) (s : String) (segments : List String) : List Token :=
  wordAt (offset + 1) s.toList :: furtherTokens (offset + 1 + width s.toList) segments

/-- The namespace in the text. -/
def spelledExtent (offset : Nat) (s : String) (segments : List String) : Extent :=
  ⟨offset + 1, offset + 1 + width (s.toList ++ further segments)⟩

theorem width_spelled (s : String) (segments : List String) :
    width (spelled s segments) = 1 + width (s.toList ++ further segments) := by
  rw [spelled, width_cons]
  rfl

theorem tokensFrom_spelled (h : ∀ t ∈ s :: segments, isIdentifier t = true) (hrest : rest.head?.any isNamePart = false)
    (depth : Nat) (outer : List Mode) (offset : Nat) :
    tokensFrom (.code depth :: outer) offset (spelled s segments ++ rest) =
      spelledTokens offset s segments ++
        tokensFrom (.code depth :: outer) (offset + width (spelled s segments)) rest := by
  obtain ⟨hs, hsegments⟩ := List.forall_mem_cons.mp h
  have hchars : spelled s segments ++ rest = [' '] ++ (s.toList ++ (further segments ++ rest)) := by
    simp only [spelled, List.cons_append, List.append_assoc, List.nil_append]
  have hblank : ∀ c ∈ [' '], (Lexer.isBlank c || isGap c) = true := List.all_eq_true.mp (by decide)
  rw [hchars, tokensFrom_code_skip hblank, tokensFrom_identifier hs (head?_further segments hrest),
    tokensFrom_further hsegments hrest, width_spelled, width_append]
  have hoffset : offset + (1 + (width s.toList + width (further segments))) =
      offset + 1 + width s.toList + width (further segments) := by omega
  rw [hoffset]
  rfl

theorem spelt_further {ts : List Token} {b e : Nat} (h : Spelt ts ⟨b, e⟩) :
    Spelt (ts ++ furtherTokens e segments) ⟨b, e + width (further segments)⟩ := by
  induction segments generalizing ts e with
  | nil =>
      rw [furtherTokens, List.append_nil]
      exact h
  | cons s segments ih =>
      have hjoin := ih (h.join (s := ⟨.separator, e, e + 1⟩) (t := wordAt (e + 1) s.toList) rfl rfl)
      rw [show (wordAt (e + 1) s.toList).stop = e + 1 + width s.toList from rfl, width_further_cons, List.append_assoc] at hjoin
      exact hjoin

theorem spelt_spelledTokens (offset : Nat) (s : String) (segments : List String) :
    Spelt (spelledTokens offset s segments) (spelledExtent offset s segments) := by
  have hword : Spelt [wordAt (offset + 1) s.toList] ⟨offset + 1, offset + 1 + width s.toList⟩ :=
    .word (t := wordAt (offset + 1) s.toList) rfl
  rw [spelledExtent, width_append, ← Nat.add_assoc]
  exact spelt_further hword

/-- The tokens of a line with a clause. -/
theorem tokensFrom_line (hsegments : ∀ t ∈ s :: segments, isIdentifier t = true) (n : Nat) (back : List Char) :
    tokensFrom [.code 0] n ('\n' :: ("namespace".toList ++ (spelled s segments ++ (';' :: '\n' :: back)))) =
      wordAt (n + 1) "namespace".toList :: (spelledTokens (n + 10) s segments ++
        ⟨.semicolon, n + 10 + width (spelled s segments), n + 10 + width (spelled s segments) + 1⟩ ::
          tokensFrom [.code 0] (n + 10 + width (spelled s segments) + 2) back) := by
  have hline : ∀ c ∈ ['\n'], (Lexer.isBlank c || isGap c) = true := List.all_eq_true.mp (by decide)
  have hnamed : Named "namespace".toList (spelled s segments ++ (';' :: '\n' :: back)) := by
    refine named_of_isIdentifier (by decide) ?_
    rintro _ ⟨⟩
    decide
  have hfirst := tokensFrom_code_skip hline 0 [] n ("namespace".toList ++ (spelled s segments ++ (';' :: '\n' :: back)))
  rw [List.singleton_append] at hfirst
  have hlast := tokensFrom_code_skip hline 0 [] (n + 10 + width (spelled s segments) + 1) back
  rw [List.singleton_append] at hlast
  rw [hfirst, hnamed.tokensFrom_eq, show n + width ['\n'] = n + 1 from rfl,
    show n + 1 + width "namespace".toList = n + 10 from rfl, tokensFrom_spelled hsegments rfl, tokensFrom_code_semicolon,
    hlast]
  rfl

end Namesake.Php
