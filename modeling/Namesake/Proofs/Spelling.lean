import Mathlib.Tactic
import Namesake.Path

/-! Paths as texts. A path is spelled by joining its names with slashes and read by cutting a text at its
slashes, so reading undoes spelling when the names are such as reading yields: not empty, without a slash,
and not a single dot. -/

namespace Namesake

open Text

theorem Text.splitOn_eq (sep : Char) (cs : List Char) : splitOn sep cs = cs.splitOn sep := by
  induction cs with
  | nil => rfl
  | cons c cs ih =>
      rw [splitOn, List.splitOn_cons_eq_if_modifyHead, ih]
      by_cases h : c = sep
      · simp only [h, beq_self_eq_true, if_true]
      · have hne := List.splitOn_ne_nil sep cs
        rw [if_neg h, if_neg (by simpa using h)]
        cases hsplit : cs.splitOn sep with
        | nil => exact absurd hsplit hne
        | cons p ps => rfl

theorem Text.not_mem_of_mem_splitOn {sep : Char} {cs part : List Char} (h : part ∈ splitOn sep cs) :
    sep ∉ part := by
  induction cs generalizing part with
  | nil =>
      rw [splitOn, List.mem_singleton] at h
      rw [h]
      exact List.not_mem_nil
  | cons c cs ih =>
      rw [splitOn] at h
      by_cases hc : c = sep
      · rw [if_pos hc, List.mem_cons] at h
        rcases h with rfl | h
        · exact List.not_mem_nil
        · exact ih h
      · rw [if_neg hc] at h
        have hne : sep ≠ c := Ne.symm hc
        cases hsplit : splitOn sep cs with
        | nil =>
            rw [hsplit, List.mem_singleton] at h
            rw [h, List.mem_singleton]
            exact hne
        | cons p ps =>
            rw [hsplit] at h ih
            rcases List.mem_cons.mp h with rfl | h
            · rw [List.mem_cons]
              exact not_or.mpr ⟨hne, ih List.mem_cons_self⟩
            · exact ih (List.mem_cons_of_mem _ h)

theorem Text.mem_of_mem_splitOn {sep c : Char} {cs part : List Char} (h : part ∈ splitOn sep cs) (hc : c ∈ part) :
    c ∈ cs := by
  induction cs generalizing part with
  | nil =>
      rw [splitOn, List.mem_singleton] at h
      rwa [h] at hc
  | cons d cs ih =>
      rw [splitOn] at h
      by_cases hd : d = sep
      · rw [if_pos hd, List.mem_cons] at h
        rcases h with rfl | h
        · cases hc
        · exact List.mem_cons_of_mem _ (ih h hc)
      · rw [if_neg hd] at h
        cases hsplit : splitOn sep cs with
        | nil =>
            rw [hsplit, List.mem_singleton] at h
            rw [h, List.mem_singleton] at hc
            rw [hc]
            exact List.mem_cons_self
        | cons p ps =>
            rw [hsplit] at h ih
            rcases List.mem_cons.mp h with rfl | h
            · rcases List.mem_cons.mp hc with rfl | hc
              · exact List.mem_cons_self
              · exact List.mem_cons_of_mem _ (ih List.mem_cons_self hc)
            · exact List.mem_cons_of_mem _ (ih (List.mem_cons_of_mem _ h) hc)

/-- What is checked for each element holds for each element. For characters this is the check to decide by, as there
are too many of them to go through. -/
theorem Text.forall_mem_of_all {α : Type} {l : List α} {p : α → Prop} [DecidablePred p]
    (h : (l.all fun a => decide (p a)) = true) : ∀ a ∈ l, p a :=
  fun a ha => of_decide_eq_true (List.all_eq_true.mp h a ha)

/-- Joined texts begin with the first one. -/
theorem Text.exists_join_eq (sep s : String) (rest : List String) :
    ∃ tail, (sep.intercalate (s :: rest)).toList = s.toList ++ tail := by
  by_cases hrest : rest = []
  · refine ⟨[], ?_⟩
    rw [hrest, String.intercalate_singleton, List.append_nil]
  · rw [String.intercalate_cons_of_ne_nil hrest, String.toList_append, String.toList_append, List.append_assoc]
    exact ⟨_, rfl⟩

theorem Text.any_head?_dropWhile (p : Char → Bool) (cs : List Char) : (cs.dropWhile p).head?.any p = false := by
  have hnot := List.head?_dropWhile_not p cs
  cases hdrop : cs.dropWhile p with
  | nil => rfl
  | cons c rest =>
      rw [hdrop] at hnot
      simpa using hnot

namespace Path

/-- A part that carries a meaning: it is neither empty nor a single dot, and holds no slash. -/
structure IsName (s : String) : Prop where
  nonempty : s ≠ ""
  notDot : s ≠ "."
  noSlash : '/' ∉ s.toList

theorem namesOf_slash (cs : List Char) : namesOf ('/' :: cs) = namesOf cs := by
  simp [namesOf, splitOn]

theorem isName_of_mem_namesOf {cs : List Char} {n : String} (h : n ∈ namesOf cs) : IsName n := by
  obtain ⟨part, hpart, rfl⟩ := List.mem_map.mp h
  obtain ⟨hsplit, hkept⟩ := List.mem_filter.mp hpart
  obtain ⟨hempty, hdot⟩ := of_decide_eq_true hkept
  refine ⟨fun hs => hempty ?_, fun hs => hdot ?_, ?_⟩
  · have := congrArg String.toList hs
    rwa [String.toList_ofList] at this
  · have := congrArg String.toList hs
    rwa [String.toList_ofList] at this
  · rw [String.toList_ofList]
    exact not_mem_of_mem_splitOn hsplit

theorem isName_of_mem_ofString {s n : String} (h : n ∈ (ofString s).names) : IsName n :=
  isName_of_mem_namesOf h

theorem namesOf_join {names : List String} (h : ∀ n ∈ names, IsName n) :
    namesOf ("/".intercalate names).toList = names := by
  rw [String.toList_intercalate]
  cases names with
  | nil => rfl
  | cons n names =>
      have hslash : "/".toList = ['/'] := rfl
      have hparts : ∀ part ∈ (n :: names).map String.toList, '/' ∉ part := by
        rintro part hpart
        obtain ⟨m, hm, rfl⟩ := List.mem_map.mp hpart
        exact (h m hm).noSlash
      rw [namesOf, splitOn_eq, hslash, List.splitOn_intercalate _ hparts (by simp), List.filter_eq_self.mpr]
      · rw [List.map_map]
        exact List.map_id'' (fun m => String.ofList_toList) _
      · intro part hpart
        obtain ⟨m, hm, rfl⟩ := List.mem_map.mp hpart
        refine decide_eq_true ⟨fun hempty => (h m hm).nonempty ?_, fun hdot => (h m hm).notDot ?_⟩
        · exact String.toList_inj.mp hempty
        · exact String.toList_inj.mp hdot

theorem head_join {names : List String} (h : ∀ n ∈ names, IsName n) :
    ("/".intercalate names).toList.head? ≠ some '/' := by
  cases names with
  | nil => simp
  | cons n names =>
      have hn := h n List.mem_cons_self
      have hlist : n.toList ≠ [] := fun hempty => hn.nonempty (String.toList_inj.mp hempty)
      obtain ⟨c, cs, hcs⟩ := List.exists_cons_of_ne_nil hlist
      obtain ⟨tail, htail⟩ := exists_join_eq "/" n names
      have hc : c ≠ '/' := by
        rintro rfl
        exact hn.noSlash (hcs ▸ List.mem_cons_self)
      rw [htail, hcs]
      simp [hc]

theorem anchorOf_append (a : Anchor) {cs : List Char} (h : cs.head? ≠ some '/') :
    anchorOf (a.text.toList ++ cs) = a := by
  cases cs with
  | nil => cases a <;> rfl
  | cons c cs =>
      have hc : c ≠ '/' := fun heq => h (congrArg some heq)
      cases a <;> simp [Anchor.text, anchorOf, hc]

theorem namesOf_append (a : Anchor) (cs : List Char) : namesOf (a.text.toList ++ cs) = namesOf cs := by
  cases a with
  | here => rfl
  | root => exact namesOf_slash cs
  | doubleRoot => exact (namesOf_slash _).trans (namesOf_slash cs)

/-- A path is read from its text. -/
theorem ofString_render {p : Path} (h : ∀ n ∈ p.names, IsName n) : ofString p.render = p := by
  obtain ⟨anchor, names⟩ := p
  unfold render ofString
  split_ifs with hempty
  · obtain ⟨rfl, rfl⟩ := hempty
    decide
  · rw [String.toList_append, anchorOf_append anchor (head_join h), namesOf_append, namesOf_join h]

theorem toList_render_ofPlace (p : Place) : (ofPlace p).render.toList = '/' :: ("/".intercalate p).toList := by
  have hroot : Anchor.root.text.toList = ['/'] := rfl
  rw [render, if_neg (fun h => nomatch h.1), String.toList_append, ofPlace, hroot, List.singleton_append]

end Path

end Namesake
