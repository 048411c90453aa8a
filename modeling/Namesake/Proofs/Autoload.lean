import Mathlib
import Namesake.Proofs.Candidates

/-! Autoloaders and the class names of their files. An autoloader looks for a class below the directory of a
rule: it follows the segments of the name that come after the rule's namespace and adds a suffix to the last one.
A resolver goes the way back, from the file to the name. -/

namespace Namesake

open Text

theorem takeWhile_reverse_append {α : Type} [BEq α] [LawfulBEq α] {sep : α} {back : List α} (h : sep ∉ back)
    (front : List α) : (front ++ sep :: back).reverse.takeWhile (· != sep) = back.reverse := by
  have hback : ∀ c ∈ back.reverse, (c != sep) = true :=
    fun c hc => bne_iff_ne.mpr fun heq => h (heq ▸ List.mem_reverse.mp hc)
  rw [List.reverse_append, List.reverse_cons, List.append_assoc, List.takeWhile_append_of_pos hback]
  simp

/-! ### File names with a suffix -/

theorem Path.cutSuffix_append {stem ext : List Char} (hstem : stem ≠ []) (hext : ext ≠ []) (hdot : '.' ∉ ext) :
    Path.cutSuffix (stem ++ '.' :: ext) = (stem, '.' :: ext) := by
  have hlen : (stem ++ '.' :: ext).length - ext.reverse.length - 1 = stem.length := by
    rw [List.length_append, List.length_cons, List.length_reverse]
    omega
  have hshort : ext.reverse.length ≠ (stem ++ '.' :: ext).length := by
    rw [List.length_append, List.length_cons, List.length_reverse]
    omega
  unfold cutSuffix
  dsimp only
  rw [takeWhile_reverse_append hdot, hlen, List.take_left, List.reverse_reverse, if_neg]
  rintro (hnil | hnil | hlong)
  · exact hext (List.reverse_eq_nil_iff.mp hnil)
  · exact hstem hnil
  · exact hshort hlong

/-- A name with some character other than a dot, and without those that no name may have. -/
theorem Path.isEntry_of_exists {s : String} {c : Char} (hc : c ∈ s.toList) (hdot : c ≠ '.') (hslash : '/' ∉ s.toList)
    (hnul : '\x00' ∉ s.toList) : Path.IsEntry s := by
  have hne (t : String) (ht : (t.toList.all fun d => d = '.') = true) : s ≠ t :=
    fun heq => hdot (forall_mem_of_all ht c (heq ▸ hc))
  refine ⟨⟨hne "" (by decide), hne "." (by decide), hslash⟩, hne ".." (by decide), ?_⟩
  rwa [Path.holdsNul, ← Bool.not_eq_true, List.contains_iff_mem]

/-- A character that has no other case stays in a text in lower case. -/
theorem Text.Lowercase.mem_chars {c : Char} (hc : ofChar c = c) (hdotted : c ≠ '\u0130') (hsigma : c ≠ '\u03A3')
    {cs : List Char} (h : c ∈ cs) (before : List Char) : c ∈ chars before cs := by
  induction cs generalizing before with
  | nil => cases h
  | cons d cs ih =>
      rw [chars]
      rcases List.mem_cons.mp h with rfl | h
      · rw [if_neg hdotted, if_neg hsigma, hc]
        exact List.mem_append_left _ List.mem_cons_self
      · exact List.mem_append_right _ (ih h _)

/-- The suffixes of sources, in any case and without the dot. -/
def Language.IsExtension (ext : String) : Prop :=
  (Language.ofSuffix? (toLower ("." ++ ext))).isSome

instance (ext : String) : Decidable (Language.IsExtension ext) :=
  inferInstanceAs (Decidable (_ = true))

namespace Language.IsExtension

variable {ext : String}

theorem lower_mem (h : IsExtension ext) :
    Lowercase.chars ['.'] ext.toList ∈ ["php".toList, "php5".toList, "php7".toList, "php8".toList, "phtml".toList] := by
  have hlower : toLower ("." ++ ext) = String.ofList ('.' :: Lowercase.chars ['.'] ext.toList) := by
    rw [toLower, String.toList_append]
    rfl
  rw [IsExtension, hlower, ofSuffix?] at h
  split_ifs at h with hmem
  · rw [List.contains_iff_mem] at hmem
    have htail := List.mem_map_of_mem (f := fun s : String => s.toList.tail) hmem
    rwa [String.toList_ofList] at htail
  · cases h

theorem ne_nil (h : IsExtension ext) : ext.toList ≠ [] := by
  intro hnil
  have hmem := h.lower_mem
  rw [hnil] at hmem
  exact absurd hmem (by decide)

theorem not_mem {c : Char} (h : IsExtension ext) (hc : c ∈ ['.', '/', '\x00']) : c ∉ ext.toList := by
  intro hmem
  have hsame : ∀ c ∈ ['.', '/', '\x00'], Lowercase.ofChar c = c ∧ c ≠ '\u0130' ∧ c ≠ '\u03A3' ∧
      ∀ lower ∈ ["php".toList, "php5".toList, "php7".toList, "php8".toList, "phtml".toList], c ∉ lower :=
    forall_mem_of_all (by decide)
  obtain ⟨hofChar, hdotted, hsigma, habsent⟩ := hsame c hc
  exact habsent _ h.lower_mem (Lowercase.mem_chars hofChar hdotted hsigma hmem _)

end Language.IsExtension

/-! ### Names and their segments -/

namespace ClassName

/-- A segment of a class name that is also a name in a directory. -/
structure IsSegment (s : String) : Prop where
  nonempty : s ≠ ""
  noSlash : '/' ∉ s.toList
  noSeparator : separator ∉ s.toList
  noDot : '.' ∉ s.toList
  noNul : '\x00' ∉ s.toList
  noBlank : ∀ c ∈ s.toList, isBlank c = false

instance (s : String) : Decidable (IsSegment s) :=
  decidable_of_iff (s ≠ "" ∧ '/' ∉ s.toList ∧ separator ∉ s.toList ∧ '.' ∉ s.toList ∧ '\x00' ∉ s.toList ∧
      (s.toList.all fun c => isBlank c = false) = true)
    ⟨fun ⟨hempty, hslash, hsep, hdot, hnul, hblank⟩ =>
        ⟨hempty, hslash, hsep, hdot, hnul, forall_mem_of_all hblank⟩,
      fun h => ⟨h.nonempty, h.noSlash, h.noSeparator, h.noDot, h.noNul,
        List.all_eq_true.mpr fun c hc => decide_eq_true (h.noBlank c hc)⟩⟩

namespace IsSegment

variable {s : String}

theorem toList_ne_nil (h : IsSegment s) : s.toList ≠ [] :=
  fun hnil => h.nonempty (String.toList_inj.mp hnil)

theorem exists_ne_dot (h : IsSegment s) : ∃ c ∈ s.toList, c ≠ '.' := by
  obtain ⟨c, cs, hcs⟩ := List.exists_cons_of_ne_nil h.toList_ne_nil
  have hc : c ∈ s.toList := hcs ▸ List.mem_cons_self
  exact ⟨c, hc, fun heq => h.noDot (heq ▸ hc)⟩

theorem isEntry (h : IsSegment s) : Path.IsEntry s := by
  obtain ⟨c, hc, hne⟩ := h.exists_ne_dot
  exact Path.isEntry_of_exists hc hne h.noSlash h.noNul

end IsSegment

theorem cutLast_of_not_mem {cs : List Char} (h : separator ∉ cs) : cutLast cs = ([], cs) := by
  have hall : ∀ c ∈ cs.reverse, (c != separator) = true :=
    fun c hc => bne_iff_ne.mpr fun heq => h (heq ▸ List.mem_reverse.mp hc)
  have htake : cs.reverse.takeWhile (· != separator) = cs.reverse := List.takeWhile_eq_self_iff.mpr hall
  unfold cutLast
  dsimp only
  rw [htake, List.drop_eq_nil_of_le (Nat.le_succ _), List.reverse_reverse]
  rfl

theorem cutLast_append {name : List Char} (h : separator ∉ name) (front : List Char) :
    cutLast (front ++ separator :: name) = (front, name) := by
  have hdrop : (front ++ separator :: name).reverse.drop (name.length + 1) = front.reverse := by
    rw [List.reverse_append, List.drop_left']
    simp
  unfold cutLast
  dsimp only
  rw [takeWhile_reverse_append h, List.length_reverse, hdrop, List.reverse_reverse, List.reverse_reverse]

theorem trimChars_of_noBlank {cs : List Char} (h : ∀ c ∈ cs, isBlank c = false) : trimChars cs = cs := by
  have hdrop (l : List Char) (hl : ∀ c ∈ l, isBlank c = false) : l.dropWhile isBlank = l := by
    cases l with
    | nil => rfl
    | cons c l => rw [List.dropWhile_cons_of_neg (by simp [hl c List.mem_cons_self])]
  rw [trimChars, dropWhileEnd, hdrop cs h, hdrop cs.reverse fun c hc => h c (List.mem_reverse.mp hc),
    List.reverse_reverse]

/-- Segments joined by separators, the last one apart. -/
theorem toList_join_concat (front : List String) (name : String) :
    ("\\".intercalate (front ++ [name])).toList =
      if front = [] then name.toList else ("\\".intercalate front).toList ++ separator :: name.toList := by
  split_ifs with hfront
  · rw [hfront, List.nil_append, String.intercalate_singleton]
  · rw [String.intercalate_append_of_ne_nil hfront (List.cons_ne_nil _ _), String.intercalate_singleton,
      String.toList_append, String.toList_append, List.append_assoc]
    rfl

theorem mem_join {segments : List String} {c : Char} (h : c ∈ ("\\".intercalate segments).toList) :
    c = separator ∨ ∃ s ∈ segments, c ∈ s.toList := by
  induction segments with
  | nil => simp at h
  | cons s segments ih =>
      by_cases hrest : segments = []
      · rw [hrest, String.intercalate_singleton] at h
        exact .inr ⟨s, List.mem_cons_self, h⟩
      · rw [String.intercalate_cons_of_ne_nil hrest, String.toList_append, String.toList_append] at h
        rcases List.mem_append.mp h with h | h
        · rcases List.mem_append.mp h with h | h
          · exact .inr ⟨s, List.mem_cons_self, h⟩
          · exact .inl (List.mem_singleton.mp h)
        · exact (ih h).imp_right fun ⟨t, ht, hc⟩ => ⟨t, List.mem_cons_of_mem _ ht, hc⟩

theorem dropWhile_join {segments : List String} (h : ∀ s ∈ segments, IsSegment s) :
    ("\\".intercalate segments).toList.dropWhile (· == separator) = ("\\".intercalate segments).toList := by
  cases segments with
  | nil => rfl
  | cons s rest =>
      have hs := h s List.mem_cons_self
      obtain ⟨tail, htail⟩ := exists_join_eq "\\" s rest
      obtain ⟨c, cs, hcs⟩ := List.exists_cons_of_ne_nil hs.toList_ne_nil
      have hc : c ≠ separator := by
        rintro rfl
        exact hs.noSeparator (hcs ▸ List.mem_cons_self)
      rw [htail, hcs, List.cons_append, List.dropWhile_cons_of_neg (by simpa using hc)]

/-- Segments joined by separators are read as the name with these segments. -/
theorem parse_join {front : List String} {name : String} (h : ∀ s ∈ front ++ [name], IsSegment s) :
    parse ("\\".intercalate (front ++ [name])) = .ok ⟨"\\".intercalate front, name⟩ := by
  have hname : IsSegment name := h name (List.mem_append_right _ List.mem_cons_self)
  have hblank : ∀ c ∈ ("\\".intercalate (front ++ [name])).toList, isBlank c = false := by
    intro c hc
    rcases mem_join hc with rfl | ⟨s, hs, hc⟩
    · rfl
    · exact (h s hs).noBlank c hc
  have hcut : cutLast ("\\".intercalate (front ++ [name])).toList =
      (("\\".intercalate front).toList, name.toList) := by
    rw [toList_join_concat]
    split_ifs with hfront
    · rw [cutLast_of_not_mem hname.noSeparator, hfront]
      rfl
    · exact cutLast_append hname.noSeparator _
  have hfilled : name.isEmpty = false := by
    rw [← Bool.not_eq_true, String.isEmpty_iff]
    exact hname.nonempty
  unfold parse
  rw [trimChars_of_noBlank hblank, dropWhile_join h, hcut]
  dsimp only
  rw [String.ofList_toList, String.ofList_toList, check, hfilled]
  rfl

theorem eq_nil_of_join {segments : List String} (h : ∀ s ∈ segments, IsSegment s)
    (hjoin : "\\".intercalate segments = "") : segments = [] := by
  cases segments with
  | nil => rfl
  | cons s rest =>
      obtain ⟨tail, htail⟩ := exists_join_eq "\\" s rest
      rw [hjoin] at htail
      have hs : s.toList = [] := (List.append_eq_nil_iff.mp htail.symm).1
      exact absurd (String.toList_inj.mp hs) (h s List.mem_cons_self).nonempty

/-- Different lists of segments are joined to different texts. -/
theorem join_injective {segments segments' : List String} (h : ∀ s ∈ segments, IsSegment s)
    (h' : ∀ s ∈ segments', IsSegment s) (heq : "\\".intercalate segments = "\\".intercalate segments') :
    segments = segments' := by
  have hsplit (l : List String) (hl : ∀ s ∈ l, IsSegment s) (hne : l ≠ []) :
      ("\\".intercalate l).toList.splitOn separator = l.map String.toList := by
    rw [String.toList_intercalate]
    refine List.splitOn_intercalate _ (fun part hpart => ?_) (by simpa using hne)
    obtain ⟨s, hs, rfl⟩ := List.mem_map.mp hpart
    exact (hl s hs).noSeparator
  by_cases hne : segments = []
  · rw [hne] at heq ⊢
    exact (eq_nil_of_join h' heq.symm).symm
  · by_cases hne' : segments' = []
    · rw [hne'] at heq ⊢
      exact eq_nil_of_join h heq
    · have hmap : segments.map String.toList = segments'.map String.toList := by
        rw [← hsplit segments h hne, heq, hsplit segments' h' hne']
      exact List.map_injective_iff.mpr (fun s t hst => String.toList_inj.mp hst) hmap

end ClassName

/-! ### Files of an autoloader -/

namespace Rule

/-- The file that an autoloader loads for the class whose segments after the rule's namespace are `segments` and
then `name`. -/
def fileOf (r : Rule) (segments : List String) (name ext : String) : Place :=
  r.directory ++ segments ++ [name ++ "." ++ ext]

variable {r : Rule} {spaces segments : List String} {name ext : String}

theorem stem_fileOf (hname : ClassName.IsSegment name) (hext : Language.IsExtension ext) :
    (Path.ofPlace (r.fileOf segments name ext)).stem = name := by
  have hchars : (name ++ "." ++ ext).toList = name.toList ++ '.' :: ext.toList := by
    rw [String.toList_append, String.toList_append, List.append_assoc]
    rfl
  have hlast : (Path.ofPlace (r.fileOf segments name ext)).name = name ++ "." ++ ext := by
    rw [Path.name, Path.ofPlace, fileOf, List.getLast?_concat, Option.getD_some]
  rw [Path.stem, hlast, hchars, Path.cutSuffix_append hname.toList_ne_nil hext.ne_nil (hext.not_mem (by decide)),
    String.ofList_toList]

theorem isEntry_of_mem_fileOf (hdir : ∀ n ∈ r.directory, Path.IsEntry n)
    (h : ∀ s ∈ segments ++ [name], ClassName.IsSegment s) (hext : Language.IsExtension ext) {n : String}
    (hn : n ∈ r.fileOf segments name ext) : Path.IsEntry n := by
  have hname : ClassName.IsSegment name := h name (List.mem_append_right _ List.mem_cons_self)
  rcases List.mem_append.mp hn with hn | hn
  · rcases List.mem_append.mp hn with hn | hn
    · exact hdir n hn
    · exact (h n (List.mem_append_left _ hn)).isEntry
  · obtain rfl := List.mem_singleton.mp hn
    obtain ⟨c, hc, hne⟩ := hname.exists_ne_dot
    have hspecial (d : Char) (hd : d ∈ ['/', '\x00']) (hnot : d ∉ name.toList) : d ∉ (name ++ "." ++ ext).toList := by
      rw [String.toList_append, String.toList_append, List.mem_append, List.mem_append]
      rintro ((hd' | hd') | hd')
      · exact hnot hd'
      · have hdot : ∀ d ∈ ['/', '\x00'], d ∉ ".".toList := forall_mem_of_all (by decide)
        exact hdot d hd hd'
      · exact hext.not_mem (List.mem_cons_of_mem _ hd) hd'
    refine Path.isEntry_of_exists (c := c) ?_ hne (hspecial _ (by decide) hname.noSlash)
      (hspecial _ (by decide) hname.noNul)
    rw [String.toList_append, String.toList_append]
    exact List.mem_append_left _ (List.mem_append_left _ hc)

/-- The rule gives the file of a class the name of the class. -/
theorem derives_fileOf (hspace : r.space = "\\".intercalate spaces)
    (h : ∀ s ∈ spaces ++ segments ++ [name], ClassName.IsSegment s) (hext : Language.IsExtension ext) :
    r.Derives (r.fileOf segments name ext) ⟨"\\".intercalate (spaces ++ segments), name⟩ := by
  have hname : ClassName.IsSegment name := h name (List.mem_append_right _ List.mem_cons_self)
  refine ⟨segments, _, rfl, ?_⟩
  rw [stem_fileOf hname hext]
  have hjoin : "\\".intercalate ((if r.space = "" then [] else [r.space]) ++ segments ++ [name]) =
      "\\".intercalate (spaces ++ segments ++ [name]) := by
    rw [hspace, List.append_assoc, List.append_assoc]
    by_cases hspaces : spaces = []
    · rw [hspaces, if_pos String.intercalate_nil]
    · have hne : "\\".intercalate spaces ≠ "" := fun hempty =>
        hspaces (ClassName.eq_nil_of_join (fun s hs => h s (by simp [hs])) hempty)
      have hrest : segments ++ [name] ≠ [] := List.concat_ne_nil _ _
      rw [if_neg hne, String.intercalate_append_of_ne_nil hspaces hrest,
        String.intercalate_append_of_ne_nil (List.cons_ne_nil _ _) hrest, String.intercalate_singleton]
  rw [hjoin, ClassName.parse_join h]

/-- The files of two classes do not get one name. -/
theorem fileOf_injective {segments' : List String} {name' : String} (hspace : r.space = "\\".intercalate spaces)
    (h : ∀ s ∈ spaces ++ segments ++ [name], ClassName.IsSegment s)
    (h' : ∀ s ∈ spaces ++ segments' ++ [name'], ClassName.IsSegment s) (hext : Language.IsExtension ext)
    (heq : Resolver.Rule.apply r (r.fileOf segments' name' ext) = Resolver.Rule.apply r (r.fileOf segments name ext)) :
    segments' = segments ∧ name' = name := by
  have happly := Resolver.Rule.apply_eq_some_iff.mpr (derives_fileOf hspace h hext)
  have happly' := Resolver.Rule.apply_eq_some_iff.mpr (derives_fileOf hspace h' hext)
  rw [happly, happly'] at heq
  have hclass := Option.some.inj heq
  have hspaces := congrArg ClassName.space hclass
  have hsegments := ClassName.join_injective (fun s hs => h' s (List.mem_append_left _ hs))
    (fun s hs => h s (List.mem_append_left _ hs)) hspaces
  exact ⟨List.append_cancel_left hsegments, congrArg ClassName.name hclass⟩

end Rule

namespace Resolver

variable {rules : List Rule} {rule : Rule} {i : Nat} {spaces segments : List String} {name ext : String}

/-- The name of a rule is the best one if the rule goes before all others that lie above the place. -/
theorem head?_derived {p : Place} {c : ClassName} (hrule : rules[i]? = some rule) (hc : rule.Derives p c)
    (hfirst : ∀ j other, rules[j]? = some other → j ≠ i → other.directory <+: p → Rule.Outranks (rule, i) (other, j)) :
    (derived rules p).head? = some c := by
  obtain ⟨-, hmem, hbest, hpair⟩ := derived_ranked rules p
  have hcmem : c ∈ derived rules p := (hmem c).mpr ⟨rule, List.mem_of_getElem? hrule, hc⟩
  have hself : ∀ e ∈ rules.zipIdx, ∀ d, Resolver.Rule.apply e.1 p = some d → e = (rule, i) ∨ Rule.Outranks (rule, i) e := by
    rintro ⟨other, j⟩ he d hd
    have hother : rules[j]? = some other := List.mem_zipIdx_iff_getElem?.mp he
    by_cases hj : j = i
    · subst hj
      rw [hrule] at hother
      exact .inl (by rw [Option.some.inj hother])
    · obtain ⟨way, last, hplace, -⟩ := Rule.apply_eq_some_iff.mp hd
      exact .inr (hfirst j other hother hj ⟨way ++ [last], by rw [hplace, List.append_assoc]⟩)
  have hisBest : Rule.IsBest rules p c (rule, i) :=
    ⟨List.mem_zipIdx_iff_getElem?.mpr hrule, Rule.apply_eq_some_iff.mpr hc, fun e he hec => hself e he c hec⟩
  cases hlist : derived rules p with
  | nil =>
      rw [hlist] at hcmem
      cases hcmem
  | cons d rest =>
      rw [hlist] at hcmem hpair
      rcases List.mem_cons.mp hcmem with rfl | hrest
      · rfl
      · obtain ⟨e, he, -⟩ := hbest d (by rw [hlist]; exact List.mem_cons_self)
        have hbefore : Rule.Outranks e (rule, i) := (List.pairwise_cons.mp hpair).1 c hrest e (rule, i) he hisBest
        rcases hself e he.mem d he.gives with rfl | hafter
        · exact absurd hbefore hbefore.asymm
        · exact absurd hbefore hafter.asymm

/-- A path that leads to the file of a class has the class among its names, and it is the best one if every other
directory above the file is less deep or is the same one declared later. So it is for the file's own path if no
link is on the way. The files of two classes have different names by one rule. -/
theorem autoload_inverse {root : Path} (hrule : rules[i]? = some rule) (hspace : rule.space = "\\".intercalate spaces)
    (h : ∀ s ∈ spaces ++ segments ++ [name], ClassName.IsSegment s) (hext : Language.IsExtension ext) :
    let file := rule.fileOf segments name ext
    let c : ClassName := ⟨"\\".intercalate (spaces ++ segments), name⟩
    let r := autoload root rules
    (∀ (w : Vantage) path, w.resolve (root.join (Path.ofString path)) = .ok (Path.ofPlace file) →
      (∃ found, r.candidates w path = .ok found ∧ c ∈ found) ∧
      ((∀ j other, rules[j]? = some other → j ≠ i → other.directory <+: file →
          other.directory.length < rule.directory.length ∨ other.directory = rule.directory ∧ i < j) →
        r.best w path = .ok (.ok c))) ∧
    ((∀ n ∈ rule.directory, Path.IsEntry n) → ∀ w : Vantage, w.disk.Solid file →
      w.resolve (root.join (Path.ofString (Path.ofPlace file).render)) = .ok (Path.ofPlace file)) ∧
    ∀ segments' name', (∀ s ∈ segments' ++ [name'], ClassName.IsSegment s) →
      Rule.apply rule (rule.fileOf segments' name' ext) = Rule.apply rule file → segments' = segments ∧ name' = name := by
  intro file c r
  have hderives : rule.Derives file c := Rule.derives_fileOf hspace h hext
  have hspaces : ∀ s ∈ spaces, ClassName.IsSegment s := fun s hs => h s (by simp [hs])
  refine ⟨fun w path hpath => ⟨?_, fun hother => ?_⟩, fun hdir w hsolid => ?_, fun segments' name' h' happly => ?_⟩
  · refine ⟨derived rules file, ?_, ?_⟩
    · rw [candidates, hpath]
      rfl
    · exact ((derived_ranked rules file).2.1 c).mpr ⟨rule, List.mem_of_getElem? hrule, hderives⟩
  · have hhead : (derived rules file).head? = some c := by
      refine head?_derived hrule hderives fun j other hj hne habove => ?_
      rcases hother j other hj hne habove with hshort | ⟨hsame, hlater⟩
      · exact .inl hshort
      · exact .inr ⟨by rw [hsame], hlater⟩
    obtain ⟨rest, hlist⟩ := List.head?_eq_some_iff.mp hhead
    rw [best, candidates, hpath]
    dsimp only [Except.map, Path.ofPlace]
    rw [hlist]
  · have hentry : ∀ n ∈ file, Path.IsEntry n := fun n hn =>
      Rule.isEntry_of_mem_fileOf hdir (fun s hs => h s (by rw [List.append_assoc]; exact List.mem_append_right _ hs)) hext hn
    rw [Path.ofString_render fun n hn => (hentry n hn).toIsName, Path.join_of_isAbsolute rfl]
    exact Vantage.resolve_ofPlace hsolid hentry
  · refine Rule.fileOf_injective hspace h (fun s hs => ?_) hext happly
    rw [List.append_assoc] at hs
    rcases List.mem_append.mp hs with hs | hs
    · exact hspaces s hs
    · exact h' s hs

/-- Two rules whose directories lie one in the other, and a class of the inner one. -/
theorem autoload_inverse_nested :
    let rules : List Rule := [⟨"Acme", ["src"]⟩, ⟨"Acme\\Sub", ["src", "lib"]⟩]
    let w : Vantage := ⟨.empty, ["home"]⟩
    (∀ s ∈ ["Acme", "Sub"] ++ ["A"] ++ ["B"], ClassName.IsSegment s) ∧ Language.IsExtension "PHP" ∧
    (Rule.mk "Acme\\Sub" ["src", "lib"]).fileOf ["A"] "B" "PHP" = ["src", "lib", "A", "B.PHP"] ∧
    (autoload (Path.ofString "/") rules).best w "/src/lib/A/B.PHP" = .ok (.ok ⟨"Acme\\Sub\\A", "B"⟩) := by
  intro rules w
  have hsegments : ∀ s ∈ ["Acme", "Sub"] ++ ["A"] ++ ["B"], ClassName.IsSegment s := by decide +kernel
  have hext : Language.IsExtension "PHP" := by decide +kernel
  have hrule : rules[1]? = some ⟨"Acme\\Sub", ["src", "lib"]⟩ := rfl
  have hspace : "Acme\\Sub" = "\\".intercalate ["Acme", "Sub"] := by decide
  have hstraight : Disk.empty.Straight [] "/src/lib/A/B.PHP" := Disk.straight_empty _ (by decide)
  obtain ⟨hbest, hresolve, -⟩ := @autoload_inverse _ _ _ _ _ _ _ (Path.ofString "/") hrule hspace hsegments hext
  have hpath := hresolve (by decide +kernel) w hstraight.solid
  refine ⟨hsegments, hext, rfl, (hbest w "/src/lib/A/B.PHP" hpath).2 fun j other hj hne _ => .inl ?_⟩
  match j, hj with
  | 0, hj =>
      obtain rfl := Option.some.inj hj
      decide
  | 1, _ => exact absurd rfl hne

/-- A link below the directory leads out of it, so the file has no name; and what is no white space to others but
is trimmed like it goes missing from a name. -/
theorem autoload_lost :
    let v : Vantage := ⟨⟨[(["lib"], .directory), (["lib", "X.php"], .file []), (["src"], .directory),
      (["src", "Sub"], .link "../lib")]⟩, []⟩
    let rule : Rule := ⟨"Acme", ["src"]⟩
    let r := autoload (Path.ofPlace []) [rule]
    ofRules v (Path.ofString "/") [("Acme\\", .text "src")] = .ok r ∧
    (∀ s ∈ ["Acme"] ++ ["Sub"] ++ ["X"], ClassName.IsSegment s) ∧ Language.IsExtension "php" ∧
    r.candidates v (Path.ofPlace (rule.fileOf ["Sub"] "X" "php")).render = .ok [] ∧
    r.candidates ⟨.empty, []⟩ (Path.ofPlace (rule.fileOf [] "A\x1f" "php")).render = .ok [⟨"Acme", "A"⟩] := by
  intro v rule r
  have hderived : derived [rule] ["src", "A\x1f.php"] = [⟨"Acme", "A"⟩] := by cbv
  refine ⟨by cbv, by decide +kernel, by decide +kernel, by cbv, ?_⟩
  have hstraight : Disk.empty.Straight [] "/src/A\x1f.php" := Disk.straight_empty _ (by decide)
  have hcandidates : r.candidates ⟨.empty, []⟩ "/src/A\x1f.php" = .ok (derived [rule] ["src", "A\x1f.php"]) :=
    candidates_of_straight (List.forall_mem_nil _) hstraight
  exact hcandidates.trans (congrArg _ hderived)

end Resolver

end Namesake
