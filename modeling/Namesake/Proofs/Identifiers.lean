import Namesake.Proofs.Scanning

/-! Names in code. An identifier gives one word, and a name that is put together from identifiers gives a word for each
of them with a separator in front of every further one. -/

namespace Namesake.Php

open Lexer

/-- The characters of further segments of a name, each behind its separator. -/
def further (segments : List String) : List Char :=
  segments.flatMap fun s => '\\' :: s.toList

def furtherTokens (offset : Nat) : List String → List Token
  | [] => []
  | s :: segments => ⟨.separator, offset, offset + 1⟩ :: wordAt (offset + 1) s.toList ::
      furtherTokens (offset + 1 + width s.toList) segments

variable {s : String} {segments : List String} {depth offset : Nat} {outer : List Mode} {rest : List Char}

theorem toList_intercalate (s : String) (segments : List String) :
    ("\\".intercalate (s :: segments)).toList = s.toList ++ further segments := by
  induction segments generalizing s with
  | nil => rw [String.intercalate_singleton, further, List.flatMap_nil, List.append_nil]
  | cons t segments ih =>
      rw [String.intercalate_cons_of_ne_nil (List.cons_ne_nil _ _), String.toList_append, String.toList_append, ih,
        List.append_assoc]
      rfl

theorem toNat_of_letter {c : Char} (h : (c == '_' || c.isAlpha) = true) : 65 ≤ c.toNat ∧ c.toNat ≤ 122 := by
  rw [Bool.or_eq_true, beq_iff_eq] at h
  rcases h with rfl | h
  · decide
  · rcases Bool.or_eq_true_iff.mp (show (c.isUpper || c.isLower) = true from h) with hupper | hlower
    · have hcodes : 'A' ≤ c ∧ c ≤ 'Z' := of_decide_eq_true hupper
      have hrange : 65 ≤ c.toNat ∧ c.toNat ≤ 90 := hcodes
      omega
    · obtain ⟨hfirst, hlast⟩ := Bool.and_eq_true_iff.mp (show (decide ('a' ≤ c) && decide (c ≤ 'z')) = true from hlower)
      have hrange : 97 ≤ c.toNat ∧ c.toNat ≤ 122 := ⟨of_decide_eq_true hfirst, of_decide_eq_true hlast⟩
      omega

theorem not_skipped_of_letter {c : Char} (h : (c == '_' || c.isAlpha) = true) :
    (Lexer.isBlank c || isGap c) = false := by
  have hrange := toNat_of_letter h
  by_contra hskip
  rw [Bool.not_eq_false, Lexer.isBlank, isGap] at hskip
  simp only [Bool.or_eq_true, beq_iff_eq, Bool.and_eq_true, decide_eq_true_eq, Char.le_def,
    UInt32.le_iff_toNat_le] at hskip
  rcases hskip with (rfl | ⟨-, hle⟩) | ((rfl | rfl) | rfl) | rfl
  · exact absurd hrange (by decide)
  · have hle' : c.toNat ≤ 13 := hle
    omega
  all_goals exact absurd hrange (by decide)

theorem isNameStart_of_letter {c : Char} (h : (c == '_' || c.isAlpha) = true) : isNameStart c = true := by
  rw [isNameStart, h, Bool.true_or]

theorem isNamePart_of_alphanum {c : Char} (h : (c == '_' || c.isAlphanum) = true) : isNamePart c = true := by
  rw [Char.isAlphanum, ← Bool.or_assoc] at h
  rw [isNamePart, isNameStart]
  rcases Bool.or_eq_true_iff.mp h with h | h
  · rw [h, Bool.true_or, Bool.true_or]
  · rw [h, Bool.or_true]

theorem tokensFrom_identifier (hs : isIdentifier s = true) (hrest : rest.head?.any isNamePart = false) :
    tokensFrom (.code depth :: outer) offset (s.toList ++ rest) =
      wordAt offset s.toList :: tokensFrom (.code depth :: outer) (offset + width s.toList) rest := by
  rw [isIdentifier] at hs
  split at hs
  · cases hs
  · rename_i c cs hchars
    rw [Bool.and_eq_true, List.all_eq_true] at hs
    rw [hchars]
    exact tokensFrom_code_word (isNameStart_of_letter hs.1) (not_skipped_of_letter hs.1)
      (fun d hd => isNamePart_of_alphanum (hs.2 d hd)) hrest

theorem head?_further (segments : List String) (hrest : rest.head?.any isNamePart = false) :
    (further segments ++ rest).head?.any isNamePart = false := by
  cases segments with
  | nil => exact hrest
  | cons s segments => rfl

theorem width_further_cons (offset : Nat) (s : String) (segments : List String) :
    offset + 1 + width s.toList + width (further segments) = offset + width (further (s :: segments)) := by
  show _ = offset + width ('\\' :: s.toList ++ further segments)
  rw [width_append, width_cons, show ('\\').utf8Size = 1 from rfl]
  omega

theorem tokensFrom_further (h : ∀ s ∈ segments, isIdentifier s = true) (hrest : rest.head?.any isNamePart = false)
    (offset : Nat) : tokensFrom (.code depth :: outer) offset (further segments ++ rest) =
      furtherTokens offset segments ++ tokensFrom (.code depth :: outer) (offset + width (further segments)) rest := by
  induction segments generalizing offset with
  | nil => rfl
  | cons s segments ih =>
      obtain ⟨hs, hsegments⟩ := List.forall_mem_cons.mp h
      have hchars : further (s :: segments) ++ rest = '\\' :: (s.toList ++ (further segments ++ rest)) := by
        rw [further, List.flatMap_cons, ← further]
        simp only [List.cons_append, List.append_assoc]
      rw [hchars, tokensFrom_code_separator, tokensFrom_identifier hs (head?_further segments hrest), ih hsegments,
        width_further_cons]
      rfl

end Namesake.Php
