import Mathlib
import Namesake.Proofs.Autoload

/-! Type names written out and read again. Reading takes blanks from both ends of a text first and the backslashes
in front afterwards, once each, so a blank that stands behind these backslashes stays and becomes part of the name.
Every other name is spelled the way it is read. -/

namespace Namesake

open Text

namespace Text

variable {p : Char → Bool} {c : Char} {cs front : List Char}

theorem exists_dropWhile_concat (front : List Char) (hc : p c = false) :
    ∃ rest, (front ++ [c]).dropWhile p = rest ++ [c] := by
  induction front with
  | nil => exact ⟨[], List.dropWhile_cons_of_neg (by simp [hc])⟩
  | cons d front ih =>
      by_cases hd : p d = true
      · rw [List.cons_append, List.dropWhile_cons_of_pos hd]
        exact ih
      · exact ⟨d :: front, List.dropWhile_cons_of_neg hd⟩

theorem dropWhileEnd_concat (front : List Char) (hc : p c = false) : dropWhileEnd p (front ++ [c]) = front ++ [c] := by
  rw [dropWhileEnd, List.reverse_concat, List.dropWhile_cons_of_neg (by simp [hc]), List.reverse_cons,
    List.reverse_reverse]

theorem of_dropWhileEnd_concat (h : dropWhileEnd p cs = front ++ [c]) : p c = false := by
  rw [dropWhileEnd, List.reverse_eq_iff, List.reverse_concat] at h
  have hne : cs.reverse.dropWhile p ≠ [] := h ▸ List.cons_ne_nil _ _
  have hhead := List.head_dropWhile_not p hne
  simpa only [h, List.head_cons] using hhead

theorem dropWhile_of_head? (h : cs.head?.any p = false) : cs.dropWhile p = cs := by
  cases cs with
  | nil => rfl
  | cons c cs => exact List.dropWhile_cons_of_neg (by simpa using h)

theorem head?_trimChars (cs : List Char) : (trimChars cs).head?.any isBlank = false := by
  have hfront : trimChars cs <+: cs.dropWhile isBlank := by
    have hback : (cs.dropWhile isBlank).reverse.dropWhile isBlank <:+ (cs.dropWhile isBlank).reverse :=
      List.dropWhile_suffix _
    rw [trimChars, dropWhileEnd]
    exact List.reverse_suffix.mp (by rwa [List.reverse_reverse])
  cases htrim : trimChars cs with
  | nil => rfl
  | cons c rest =>
      obtain ⟨more, hmore⟩ := htrim ▸ hfront
      have hhead := any_head?_dropWhile isBlank cs
      rwa [← hmore] at hhead

theorem length_trimChars_le (cs : List Char) : (trimChars cs).length ≤ (cs.dropWhile isBlank).length := by
  rw [trimChars, dropWhileEnd, List.length_reverse]
  exact (List.dropWhile_sublist _).length_le.trans_eq List.length_reverse

/-- A text without blanks at its ends is left as it is. -/
theorem trimChars_of_ends (hfirst : cs.head?.any isBlank = false) (hcs : cs = front ++ [c]) (hc : isBlank c = false) :
    trimChars cs = cs := by
  rw [trimChars, dropWhile_of_head? hfirst, hcs, dropWhileEnd_concat front hc]

end Text

namespace ClassName

variable {s : String} {c : ClassName}

/-- The part of a text that is read: without blanks at its ends, then without separators in front. -/
def core (s : String) : List Char :=
  (trimChars s.toList).dropWhile (· == separator)

/-- The separators in front of the text hide a blank. -/
def HidesBlank (s : String) : Prop :=
  ∃ n b rest, trimChars s.toList = List.replicate (n + 1) separator ++ b :: rest ∧ isBlank b = true

/-- What reading makes of a name: the short name is there and holds no separator. -/
structure IsRead (c : ClassName) : Prop where
  filled : c.name ≠ ""
  noSeparator : separator ∉ c.name.toList

theorem toList_render (c : ClassName) :
    c.render.toList = if c.space = "" then c.name.toList else c.space.toList ++ separator :: c.name.toList := by
  simp only [render, String.isEmpty_iff]
  split_ifs with hspace
  · rfl
  · rw [String.toList_append, String.toList_append, List.append_assoc]
    rfl

theorem cutLast_render (h : IsRead c) : cutLast c.render.toList = (c.space.toList, c.name.toList) := by
  rw [toList_render]
  split_ifs with hspace
  · rw [cutLast_of_not_mem h.noSeparator, hspace]
    rfl
  · exact cutLast_append h.noSeparator _

theorem head?_core_ne (s : String) : (core s).head? ≠ some separator := by
  intro hhead
  have hnone := any_head?_dropWhile (· == separator) (trimChars s.toList)
  rw [← core, hhead] at hnone
  cases hnone

/-- A text is whole or cut at its last separator. -/
theorem exists_cutLast (cs : List Char) :
    separator ∉ cs ∧ cutLast cs = ([], cs) ∨
      ∃ front back, cs = front ++ separator :: back ∧ separator ∉ back ∧ cutLast cs = (front, back) := by
  by_cases hmem : separator ∈ cs
  · obtain ⟨front, back, hcs, hfirst⟩ := List.eq_append_cons_of_mem (List.mem_reverse.mpr hmem)
    have hback : separator ∉ front.reverse := fun h => hfirst (List.mem_reverse.mp h)
    have hcs' : cs = back.reverse ++ separator :: front.reverse := by
      rw [← List.reverse_reverse cs, hcs, List.reverse_append, List.reverse_cons, List.append_assoc]
      rfl
    exact .inr ⟨_, _, hcs', hback, hcs' ▸ cutLast_append hback _⟩
  · exact .inl ⟨hmem, cutLast_of_not_mem hmem⟩

/-- A text is read as the name that its core spells. -/
theorem parse_eq_ok_iff : parse s = .ok c ↔ IsRead c ∧ c.render.toList = core s := by
  have hparse : parse s = check (String.ofList (cutLast (core s)).1) (String.ofList (cutLast (core s)).2) := rfl
  constructor
  · intro h
    rw [hparse, check] at h
    split_ifs at h with hempty
    · cases h
    obtain rfl := Except.ok.inj h
    have hfilled : String.ofList (cutLast (core s)).2 ≠ "" := fun heq => hempty (String.isEmpty_iff.mpr heq)
    rcases exists_cutLast (core s) with ⟨hnone, hcut⟩ | ⟨front, back, hcore, hback, hcut⟩
    · rw [hcut] at hfilled ⊢
      refine ⟨⟨hfilled, by rwa [String.toList_ofList]⟩, ?_⟩
      rw [toList_render, if_pos rfl, String.toList_ofList]
    · have hfront : String.ofList front ≠ "" := by
        intro hnil
        obtain rfl : front = [] := by rw [← String.toList_ofList (l := front), hnil]; rfl
        exact head?_core_ne s (by rw [hcore]; rfl)
      rw [hcut] at hfilled ⊢
      refine ⟨⟨hfilled, by rwa [String.toList_ofList]⟩, ?_⟩
      rw [toList_render, if_neg hfront, String.toList_ofList, String.toList_ofList, hcore]
  · rintro ⟨hread, hcore⟩
    have hfilled : ¬ c.name.isEmpty = true := fun hempty => hread.filled (String.isEmpty_iff.mp hempty)
    rw [hparse, ← hcore, cutLast_render hread]
    dsimp only
    rw [String.ofList_toList, String.ofList_toList, check, if_neg hfilled]

theorem head?_space_ne (h : parse s = .ok c) : c.space.toList.head? ≠ some separator := by
  obtain ⟨-, hcore⟩ := parse_eq_ok_iff.mp h
  intro hhead
  have hspace : c.space ≠ "" := by
    intro hnil
    rw [hnil] at hhead
    cases hhead
  have hne : c.space.toList ≠ [] := fun hnil => hspace (String.toList_inj.mp hnil)
  rw [toList_render, if_neg hspace] at hcore
  apply head?_core_ne s
  rw [← hcore, List.head?_append_of_ne_nil _ hne, hhead]

/-- Something is read from a text whose core ends with another character than a separator. -/
theorem exists_parse {front : List Char} {d : Char} (hcore : core s = front ++ [d]) (hd : d ≠ separator) :
    ∃ c, parse s = .ok c := by
  have hparse : parse s = check (String.ofList (cutLast (core s)).1) (String.ofList (cutLast (core s)).2) := rfl
  have hname : (cutLast (core s)).2 ≠ [] := by
    rcases exists_cutLast (core s) with ⟨-, hcut⟩ | ⟨first, back, hback, -, hcut⟩
    · rw [hcut, hcore]
      exact List.concat_ne_nil _ _
    · rw [hcut]
      rintro rfl
      rw [hcore] at hback
      exact hd (List.singleton_inj.mp (List.append_inj_right' hback rfl))
  rw [hparse, check, if_neg]
  · exact ⟨_, rfl⟩
  · intro hempty
    apply hname
    rw [← String.toList_ofList (l := (cutLast (core s)).2), String.isEmpty_iff.mp hempty]
    rfl

/-- What is read from a text ends with a character that is neither a blank nor a separator. -/
theorem exists_last (h : parse s = .ok c) :
    ∃ front d, c.render.toList = front ++ [d] ∧ isBlank d = false ∧ d ≠ separator := by
  obtain ⟨⟨hfilled, hsep⟩, hcore⟩ := parse_eq_ok_iff.mp h
  have hname : c.name.toList ≠ [] := fun hnil => hfilled (String.toList_inj.mp hnil)
  obtain ⟨front, d, hd⟩ := (List.eq_nil_or_concat' c.name.toList).resolve_left hname
  obtain ⟨rest, hrest⟩ : ∃ rest, c.render.toList = rest ++ [d] := by
    rw [toList_render, hd]
    split_ifs
    · exact ⟨front, rfl⟩
    · exact ⟨c.space.toList ++ separator :: front, by rw [List.append_assoc, List.cons_append]⟩
  refine ⟨rest, d, hrest, ?_, fun heq => hsep ?_⟩
  · have htrim : trimChars s.toList = (trimChars s.toList).takeWhile (· == separator) ++ rest ++ [d] := by
      rw [List.append_assoc, ← hrest, hcore, core, List.takeWhile_append_dropWhile]
    exact of_dropWhileEnd_concat htrim
  · rw [hd, heq]
    exact List.mem_append_right _ List.mem_cons_self

/-- A text that ends with neither a blank nor a separator has a core with the same end. -/
theorem exists_core_concat {front : List Char} {d : Char} (hs : s.toList = front ++ [d]) (hblank : isBlank d = false)
    (hd : d ≠ separator) : ∃ rest, core s = rest ++ [d] := by
  obtain ⟨rest, hrest⟩ := exists_dropWhile_concat front hblank
  rw [core, trimChars, hs, hrest, dropWhileEnd_concat rest hblank]
  exact exists_dropWhile_concat rest (by simpa using hd)

/-- A name is read from its spelling as it is unless the spelling begins with a blank. -/
theorem parse_render_iff (h : parse s = .ok c) :
    parse c.render = .ok c ↔ c.render.toList.head?.any isBlank = false := by
  obtain ⟨hread, hcore⟩ := parse_eq_ok_iff.mp h
  obtain ⟨front, d, hrender, hblank, -⟩ := exists_last h
  rw [parse_eq_ok_iff, and_iff_right hread]
  constructor
  · intro hsame
    by_contra hfirst
    obtain ⟨b, rest, hcons⟩ : ∃ b rest, c.render.toList = b :: rest := by
      rw [hrender]
      exact List.exists_cons_of_ne_nil (List.concat_ne_nil _ _)
    rw [hcons] at hfirst
    -- A blank in front is taken away, and nothing is put in for it.
    have hshort : (core c.render).length ≤ rest.length := by
      have hdrop : c.render.toList.dropWhile isBlank = rest.dropWhile isBlank := by
        rw [hcons]
        exact List.dropWhile_cons_of_pos (by simpa using hfirst)
      calc (core c.render).length
          ≤ (trimChars c.render.toList).length := (List.dropWhile_sublist _).length_le
        _ ≤ (c.render.toList.dropWhile isBlank).length := length_trimChars_le _
        _ ≤ rest.length := hdrop ▸ (List.dropWhile_sublist _).length_le
    rw [← hsame, hcons] at hshort
    exact absurd hshort (Nat.not_succ_le_self _)
  · intro hfirst
    rw [core, trimChars_of_ends hfirst hrender hblank]
    refine (dropWhile_of_head? ?_).symm
    rw [hcore]
    exact any_head?_dropWhile _ _

/-- The core of a text begins with a blank exactly if separators in front hide one. -/
theorem head?_core_isBlank_iff (s : String) : (core s).head?.any isBlank = true ↔ HidesBlank s := by
  constructor
  · intro hfirst
    obtain ⟨b, rest, hcore⟩ : ∃ b rest, core s = b :: rest := by
      apply List.exists_cons_of_ne_nil
      rintro hnil
      rw [hnil] at hfirst
      cases hfirst
    have hall : ∀ c ∈ (trimChars s.toList).takeWhile (· == separator), c = separator :=
      fun c hc => beq_iff_eq.mp (List.mem_takeWhile_imp (p := (· == separator)) hc)
    have htrim : trimChars s.toList =
        List.replicate ((trimChars s.toList).takeWhile (· == separator)).length separator ++ b :: rest := by
      rw [← List.eq_replicate_of_mem hall, ← hcore, core, List.takeWhile_append_dropWhile]
    have hblank : isBlank b = true := by simpa [hcore] using hfirst
    cases hn : ((trimChars s.toList).takeWhile (· == separator)).length with
    | zero =>
        have hhead := head?_trimChars s.toList
        rw [htrim, hn] at hhead
        simp [hblank] at hhead
    | succ n => exact ⟨n, b, rest, hn ▸ htrim, hblank⟩
  · rintro ⟨n, b, rest, htrim, hblank⟩
    have hb : b ≠ separator := by
      rintro rfl
      cases hblank
    have hcore : core s = b :: rest := by
      rw [core, htrim, List.dropWhile_append_of_pos (by simp), List.dropWhile_cons_of_neg (by simpa using hb)]
    rw [hcore]
    exact hblank

/-- A name that was read is spelled without a separator in its short name or in front. Its spelling is read too, and as
the same name unless the separators in front of the text that was read hide a blank. -/
theorem spelling_read_back (h : parse s = .ok c) :
    separator ∉ c.name.toList ∧ c.space.toList.head? ≠ some separator ∧
      ∃ c', parse c.render = .ok c' ∧ (c' = c ↔ ¬ HidesBlank s) := by
  obtain ⟨⟨-, hsep⟩, hcore⟩ := parse_eq_ok_iff.mp h
  obtain ⟨front, d, hrender, hblank, hd⟩ := exists_last h
  obtain ⟨rest, hrest⟩ := exists_core_concat hrender hblank hd
  obtain ⟨c', hc'⟩ := exists_parse hrest hd
  refine ⟨hsep, head?_space_ne h, c', hc', ?_⟩
  rw [← head?_core_isBlank_iff, ← hcore, Bool.not_eq_true, ← parse_render_iff h, hc']
  exact ⟨fun heq => heq ▸ rfl, fun heq => Except.ok.inj heq⟩

theorem spelling_read_back_padded :
    parse " \\\\Acme\\Bar Baz\u3000" = .ok ⟨"Acme", "Bar Baz"⟩ ∧
      separator ∉ "Bar Baz".toList ∧ "Acme".toList.head? ≠ some separator ∧
        ∃ c', parse (render ⟨"Acme", "Bar Baz"⟩) = .ok c' ∧
          (c' = ⟨"Acme", "Bar Baz"⟩ ↔ ¬ HidesBlank " \\\\Acme\\Bar Baz\u3000") :=
  have hparse : parse " \\\\Acme\\Bar Baz\u3000" = .ok ⟨"Acme", "Bar Baz"⟩ := by decide
  ⟨hparse, spelling_read_back hparse⟩

/-- The blank behind the first backslash is part of the name at first and is lost when the name is read again. -/
theorem spelling_loses_blank :
    parse "\\ A" = .ok ⟨"", " A"⟩ ∧ parse (render ⟨"", " A"⟩) = .ok ⟨"", "A"⟩ := by decide

end ClassName

end Namesake
