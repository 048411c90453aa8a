import Mathlib
import Namesake.Proofs.FileUri

/-! Locations written out and read again. The URI of an absolute path in its shortest spelling is read as this path,
because its octets are escaped. Nothing else is escaped: a relative path is written where a URI has its authority, so
only an empty one is read back, and what follows another scheme is written as it is, so that it must hold no escape and
nothing that is refused as an authority. -/

namespace Namesake.Location

open Text

variable {s p : String} {l : Location}

/-! ### Absolute paths -/

/-- An absolute path in its shortest spelling: one slash in front, and behind it names that are neither empty nor a
single dot, if there are any. -/
def IsTidy (s : String) : Prop :=
  ∃ cs, s.toList = '/' :: cs ∧ (cs = [] ∨ ∀ name ∈ splitOn '/' cs, name ≠ [] ∧ name ≠ ['.'])

theorem IsTidy.exists_place (h : IsTidy s) : ∃ p : Place, (∀ n ∈ p, Path.IsName n) ∧ s = (Path.ofPlace p).render := by
  obtain ⟨cs, hs, hnames⟩ := h
  by_cases hcs : cs = []
  · refine ⟨[], by simp, String.toList_inj.mp ?_⟩
    rw [hs, hcs, Path.toList_render_ofPlace]
    rfl
  · have hnames := hnames.resolve_left hcs
    have hkept : (splitOn '/' cs).filter (fun part => part ≠ [] ∧ part ≠ ['.']) = splitOn '/' cs :=
      List.filter_eq_self.mpr fun part hpart => decide_eq_true (hnames part hpart)
    refine ⟨Path.namesOf cs, fun n hn => Path.isName_of_mem_namesOf hn, String.toList_inj.mp ?_⟩
    rw [hs, Path.toList_render_ofPlace, String.toList_intercalate, Path.namesOf, hkept, List.map_map]
    have hid : (splitOn '/' cs).map (String.toList ∘ String.ofList) = splitOn '/' cs :=
      List.map_id'' (fun _ => String.toList_ofList) _
    rw [hid, splitOn_eq]
    exact congrArg _ (List.intercalate_splitOn '/').symm

/-- The URI of such a path. -/
theorem render_tidy (h : IsTidy p) : (ofFile p).render = "file://" ++ escape p := by
  obtain ⟨place, hplace, rfl⟩ := h.exists_place
  have hread : Path.ofString (Path.ofPlace place).render = Path.ofPlace place := Path.ofString_render hplace
  simp only [render, ofFile, if_true, hread]
  rfl

/-- The URI of an absolute path in its shortest spelling is read as this path, and no other such path has it. -/
theorem uri_read_back (h : IsTidy p) :
    parse (ofFile p).render = .ok (ofFile p) ∧ ∀ q, IsTidy q → p ≠ q → (ofFile p).render ≠ (ofFile q).render := by
  have hback (q : String) (hq : IsTidy q) : parse (ofFile q).render = .ok (ofFile q) := by
    obtain ⟨cs, hcs, -⟩ := id hq
    rw [render_tidy hq]
    exact parse_uri (by rw [hcs]; rfl)
  refine ⟨hback p h, fun q hq hne heq => hne ?_⟩
  have hsame := (hback p h).symm.trans ((congrArg parse heq).trans (hback q hq))
  exact congrArg Location.path (Except.ok.inj hsame)

theorem uri_read_back_odd :
    IsTidy "/a b/%41;?#[\u00e9\n:/..c/😀" ∧
      parse (ofFile "/a b/%41;?#[\u00e9\n:/..c/😀").render = .ok (ofFile "/a b/%41;?#[\u00e9\n:/..c/😀") ∧
        ∀ q, IsTidy q → "/a b/%41;?#[\u00e9\n:/..c/😀" ≠ q →
          (ofFile "/a b/%41;?#[\u00e9\n:/..c/😀").render ≠ (ofFile q).render :=
  have htidy : IsTidy "/a b/%41;?#[\u00e9\n:/..c/😀" := ⟨_, rfl, .inr (forall_mem_of_all (by decide))⟩
  ⟨htidy, uri_read_back htidy⟩

/-! ### Escapes in a path -/

/-- Somewhere a percent sign is followed by two hexadecimal digits. -/
def HasEscape (cs : List Char) : Prop :=
  ∃ a b, (Hex.value? a).isSome ∧ (Hex.value? b).isSome ∧ ['%', a, b] <:+: cs

theorem length_decodeLossyFrom_le (p : Option Utf8.Pending) (data : Octets) :
    (Utf8.decodeLossyFrom p data).length ≤ data.length + p.toList.length := by
  induction data generalizing p with
  | nil => cases p <;> simp [Utf8.decodeLossyFrom]
  | cons b data ih =>
      have hnone := ih none
      have hsome (q : Utf8.Pending) := ih (some q)
      simp only [Option.toList, List.length_nil, List.length_singleton] at hnone hsome
      have hfresh : (Utf8.decodeLossyFrom none (b :: data)).length ≤ data.length + 1 := by
        rw [Utf8.decodeLossyFrom]
        dsimp only
        cases Utf8.opening 0 b with
        | whole c => simpa using hnone
        | begins q => exact hsome q
        | invalid => simpa using hnone
      cases p with
      | none => exact hfresh
      | some p =>
          rw [Utf8.decodeLossyFrom]
          dsimp only
          split_ifs
          · cases p.accept b with
            | inl c => simp only [List.length_cons]; omega
            | inr q => exact (hsome q).trans (Nat.le_succ _)
          · exact Nat.succ_le_succ hfresh

theorem HasEscape.cons {cs : List Char} (h : HasEscape cs) (c : Char) : HasEscape (c :: cs) := by
  obtain ⟨a, b, ha, hb, hinfix⟩ := h
  exact ⟨a, b, ha, hb, hinfix.trans (List.suffix_cons c cs).isInfix⟩

/-- An escape is in front or behind the first character. -/
theorem HasEscape.of_cons {c : Char} {cs : List Char} (h : HasEscape (c :: cs)) :
    (∃ a b rest, c = '%' ∧ cs = a :: b :: rest ∧ (Hex.value? a).isSome ∧ (Hex.value? b).isSome) ∨ HasEscape cs := by
  obtain ⟨a, b, ha, hb, hinfix⟩ := h
  rcases List.infix_cons_iff.mp hinfix with ⟨rest, hrest⟩ | hinfix
  · obtain ⟨hc, hcs⟩ := List.cons.inj hrest
    exact .inl ⟨a, b, rest, hc.symm, hcs.symm, ha, hb⟩
  · exact .inr ⟨a, b, ha, hb, hinfix⟩

theorem encodeChars_concat (front : List Char) {c : Char} (hc : c.toNat < 0x80) :
    Utf8.encodeChars (front ++ [c]) = Utf8.encodeChars front ++ [UInt8.ofNat c.toNat] := by
  have hsmall : c.val.toNat ≤ 0x7f := Nat.le_of_lt_succ hc
  rw [Utf8.encodeChars_append]
  simp only [Utf8.encodeChars, List.flatMap_singleton, String.utf8EncodeChar, if_pos hsmall]
  rfl

/-- Without escapes every character stands for itself. -/
theorem unescapeFrom_of_not_hasEscape {pending : Octets} {cs : List Char} (h : ¬ HasEscape cs) (front : List Char)
    (hpending : pending.reverse = Utf8.encodeChars front) : unescapeFrom pending cs = front ++ cs := by
  fun_induction unescapeFrom pending cs generalizing front with
  | case1 pending => rw [hpending, Utf8.decodeLossyFrom_encodeChars, List.append_nil]
  | case2 pending a b rest x y hy hx ih =>
      exact absurd ⟨a, b, by rw [hx]; rfl, by rw [hy]; rfl, (List.prefix_append ['%', a, b] rest).isInfix⟩ h
  | case3 pending a b rest hne ih =>
      have hfront : (0x25 :: pending).reverse = Utf8.encodeChars (front ++ ['%']) := by
        rw [List.reverse_cons, hpending, encodeChars_concat front (by decide)]
        rfl
      rw [ih (fun h' => h (h'.cons '%')) _ hfront, List.append_assoc]
      rfl
  | case4 pending c rest hne hc ih =>
      have hfront : (UInt8.ofNat c.toNat :: pending).reverse = Utf8.encodeChars (front ++ [c]) := by
        rw [List.reverse_cons, hpending, encodeChars_concat front hc]
      rw [ih (fun h' => h (h'.cons c)) _ hfront, List.append_assoc]
      rfl
  | case5 pending c rest hne hc ih =>
      rw [hpending, Utf8.decodeLossyFrom_encodeChars, ih (fun h' => h (h'.cons c)) [] rfl]
      rfl

theorem length_unescapeFrom_le (pending : Octets) (cs : List Char) :
    (unescapeFrom pending cs).length ≤ pending.length + cs.length := by
  fun_induction unescapeFrom pending cs with
  | case1 pending => simpa using length_decodeLossyFrom_le none pending.reverse
  | case2 pending a b rest x y hy hx ih =>
      simp only [List.length_cons] at ih ⊢
      omega
  | case3 pending a b rest hne ih =>
      simp only [List.length_cons] at ih ⊢
      omega
  | case4 pending c rest hne hc ih =>
      simp only [List.length_cons] at ih ⊢
      omega
  | case5 pending c rest hne hc ih =>
      have hfront := length_decodeLossyFrom_le none pending.reverse
      simp only [List.length_reverse, Option.toList, List.length_nil] at hfront
      simp only [List.length_append, List.length_cons, List.length_nil] at ih ⊢
      omega

/-- An escape makes the text shorter: it stands for one octet, which is part of one character at most. -/
theorem length_unescapeFrom_lt {pending : Octets} {cs : List Char} (h : HasEscape cs) :
    (unescapeFrom pending cs).length < pending.length + cs.length := by
  fun_induction unescapeFrom pending cs with
  | case1 pending =>
      obtain ⟨a, b, -, -, hinfix⟩ := h
      cases List.infix_nil.mp hinfix
  | case2 pending a b rest x y hy hx ih =>
      have hle := length_unescapeFrom_le (UInt8.ofNat (x * 16 + y) :: pending) rest
      simp only [List.length_cons] at hle ⊢
      omega
  | case3 pending a b rest hne ih =>
      rcases h.of_cons with ⟨a', b', rest', -, hcs, ha, hb⟩ | h
      · cases hcs
        obtain ⟨x, hx⟩ := Option.isSome_iff_exists.mp ha
        obtain ⟨y, hy⟩ := Option.isSome_iff_exists.mp hb
        exact absurd hy (hne x y hx)
      · have hlt := ih h
        simp only [List.length_cons] at hlt ⊢
        omega
  | case4 pending c rest hne hc ih =>
      rcases h.of_cons with ⟨a, b, rest', hpercent, hcs, -, -⟩ | h
      · exact absurd hcs (hne _ _ _ hpercent)
      · have hlt := ih h
        simp only [List.length_cons] at hlt ⊢
        omega
  | case5 pending c rest hne hc ih =>
      rcases h.of_cons with ⟨a, b, rest', hpercent, hcs, -, -⟩ | h
      · exact absurd hcs (hne _ _ _ hpercent)
      · have hlt := ih h
        have hfront := length_decodeLossyFrom_le none pending.reverse
        simp only [List.length_reverse, Option.toList, List.length_nil] at hfront
        simp only [List.length_append, List.length_cons, List.length_nil] at hlt ⊢
        omega

/-- Undoing escapes leaves the texts without escapes as they are, and no others. -/
theorem unescape_eq_self_iff : unescape s.toList = s ↔ ¬ HasEscape s.toList := by
  constructor
  · intro heq h
    have hlt := @length_unescapeFrom_lt [] _ h
    have hsame : unescapeFrom [] s.toList = s.toList := by
      conv_rhs => rw [← heq]
      rw [unescape, String.toList_ofList]
    rw [hsame, List.length_nil, Nat.zero_add] at hlt
    exact Nat.lt_irrefl _ hlt
  · intro h
    rw [unescape, unescapeFrom_of_not_hasEscape h [] rfl, List.nil_append, String.ofList_toList]

/-! ### Locations that are no files -/

/-- The characters of a text that are looked at as a URI. -/
def kept (cs : List Char) : List Char :=
  cs.filter fun c => c ≠ '\t' ∧ c ≠ '\r' ∧ c ≠ '\n'

/-- A scheme as reading yields it. -/
structure IsScheme (cs : List Char) : Prop where
  long : 2 ≤ cs.length
  letter : cs.head?.any Char.isAlpha = true
  chars : cs.all isSchemeChar = true
  lower : cs.map Char.toLower = cs

theorem schemeChar_facts {c : Char} (h : isSchemeChar c = true) :
    isSchemeChar c.toLower = true ∧ c.toLower.toLower = c.toLower ∧ (c.isAlpha = true → c.toLower.isAlpha = true) ∧
      c ≠ ':' ∧ ¬ c ≤ ' ' ∧ c ∉ ['\t', '\r', '\n'] := by
  have hall : ∀ k : Fin 128, isSchemeChar (Char.ofNat k) = true →
      isSchemeChar (Char.ofNat k).toLower = true ∧ (Char.ofNat k).toLower.toLower = (Char.ofNat k).toLower ∧
        ((Char.ofNat k).isAlpha = true → (Char.ofNat k).toLower.isAlpha = true) ∧
        Char.ofNat k ≠ ':' ∧ ¬ Char.ofNat k ≤ ' ' ∧ Char.ofNat k ∉ ['\t', '\r', '\n'] := by decide
  have hsmall : c.toNat < 128 := by
    simp only [isSchemeChar, Char.isAlphanum, Char.isAlpha, Char.isUpper, Char.isLower, Char.isDigit, Bool.or_eq_true,
      Bool.and_eq_true, decide_eq_true_eq, beq_iff_eq, ge_iff_le, UInt32.le_iff_toNat_le] at h
    rcases h with (((((⟨-, h⟩ | ⟨-, h⟩) | ⟨-, h⟩) | rfl) | rfl) | rfl)
    · exact Nat.lt_of_le_of_lt h (by decide)
    · exact Nat.lt_of_le_of_lt h (by decide)
    · exact Nat.lt_of_le_of_lt h (by decide)
    all_goals decide
  have hc := hall ⟨c.toNat, hsmall⟩
  rw [Char.ofNat_toNat] at hc
  exact hc h

theorem cutScheme_append {front rest : List Char} (hletter : front.head?.any Char.isAlpha = true)
    (hchars : front.all isSchemeChar = true) : cutScheme (front ++ ':' :: rest) = (front.map Char.toLower, rest) := by
  have hfront : (front ++ ':' :: rest).takeWhile (· != ':') = front := by
    have hall : ∀ c ∈ front, (c != ':') = true := fun c hc =>
      bne_iff_ne.mpr (schemeChar_facts (List.all_eq_true.mp hchars c hc)).2.2.2.1
    rw [List.takeWhile_append_of_pos hall, List.takeWhile_cons_of_neg (by decide), List.append_nil]
  unfold cutScheme
  rw [hfront]
  dsimp only
  rw [List.drop_left]
  cases front with
  | nil => cases hletter
  | cons c front =>
      have hc : c.isAlpha = true := by simpa using hletter
      dsimp only
      rw [hc, hchars]
      rfl

/-- What is cut off as a scheme is nothing or proper, but for its length. -/
theorem cutScheme_fst (cs : List Char) : (cutScheme cs).1 = [] ∨
    (cutScheme cs).1.head?.any Char.isAlpha = true ∧ (cutScheme cs).1.all isSchemeChar = true ∧
      (cutScheme cs).1.map Char.toLower = (cutScheme cs).1 := by
  unfold cutScheme
  dsimp only
  split
  · rename_i c front d rest hfront _
    rw [hfront]
    split_ifs with h
    · rw [Bool.and_eq_true] at h
      obtain ⟨hletter, hchars⟩ := h
      have hfacts : ∀ x ∈ c :: front, isSchemeChar x = true := List.all_eq_true.mp hchars
      refine .inr ⟨?_, ?_, ?_⟩
      · exact (schemeChar_facts (hfacts c List.mem_cons_self)).2.2.1 hletter
      · rw [List.all_map, List.all_eq_true]
        exact fun x hx => (schemeChar_facts (hfacts x hx)).1
      · rw [List.map_map]
        exact List.map_congr_left fun x hx => (schemeChar_facts (hfacts x hx)).2.1
    · exact .inl rfl
  · exact .inl rfl

/-- What is read is a file or has a proper scheme. -/
theorem isScheme_of_parse (h : parse s = .ok l) (hfile : l.scheme ≠ fileScheme) : IsScheme l.scheme.toList := by
  unfold parse at h
  dsimp only at h
  split at h
  · cases h
  · split_ifs at h with hshort hsame
    · cases h
      exact absurd rfl hfile
    · cases h
      exact absurd rfl hfile
    · cases h
      rw [String.toList_ofList]
      rcases cutScheme_fst (cleaned s.toList) with hnil | ⟨hletter, hchars, hlower⟩
      · rw [hnil] at hshort
        exact absurd (Nat.zero_le 1) hshort
      · exact ⟨Nat.lt_of_not_le hshort, hletter, hchars, hlower⟩

theorem cleaned_append {front : List Char} (hletter : front.head?.any Char.isAlpha = true)
    (hchars : front.all isSchemeChar = true) (rest : List Char) :
    cleaned (front ++ ':' :: rest) = front ++ ':' :: kept rest := by
  have hfacts : ∀ x ∈ front, isSchemeChar x = true := List.all_eq_true.mp hchars
  have hfront : kept front = front := by
    rw [kept, List.filter_eq_self]
    intro x hx
    have hne := (schemeChar_facts (hfacts x hx)).2.2.2.2.2
    simp only [List.mem_cons, List.not_mem_nil, or_false, not_or] at hne
    exact decide_eq_true hne
  cases front with
  | nil => cases hletter
  | cons c front =>
      have hc := (schemeChar_facts (hfacts c List.mem_cons_self)).2.2.2.2.1
      rw [cleaned, List.cons_append, List.dropWhile_cons_of_neg (by simpa using hc), ← List.cons_append,
        List.filter_append]
      exact congrArg (· ++ ':' :: kept rest) hfront

/-- A location that is no file is read from its spelling with the escapes in its path undone, unless what seems to be
its authority is refused. -/
theorem parse_render_of_isScheme (hscheme : IsScheme l.scheme.toList) (hfile : l.scheme ≠ fileScheme) :
    parse l.render = (Authority.check (cutAuthority (kept l.path.toList)).1).map fun _ =>
      ⟨l.scheme, unescape l.path.toList⟩ := by
  have hchars : l.render.toList = l.scheme.toList ++ ':' :: l.path.toList := by
    rw [render, if_neg hfile, String.toList_append, String.toList_append, List.append_assoc]
    rfl
  have hdrop : (l.scheme.toList ++ ':' :: l.path.toList).drop (l.scheme.toList.length + 1) = l.path.toList := by
    simp
  have hlong : ¬ l.scheme.toList.length ≤ 1 := Nat.not_le.mpr hscheme.long
  unfold parse
  rw [hchars, cleaned_append hscheme.letter hscheme.chars, cutScheme_append hscheme.letter hscheme.chars, hscheme.lower]
  dsimp only
  rw [hdrop, if_neg hlong, String.ofList_toList, if_neg hfile]
  cases Authority.check (cutAuthority (kept l.path.toList)).1 <;> rfl

/-! ### Relative paths of files -/

theorem head?_unescapeFrom {pending : Octets} (cs : List Char) (h : pending.reverse.head? = some 0x2F) :
    (unescapeFrom pending cs).head? = some '/' := by
  have hnext (b : UInt8) {pending : Octets} (h : pending.reverse.head? = some 0x2F) :
      (b :: pending).reverse.head? = some 0x2F := by
    rw [List.reverse_cons, List.head?_append, h]
    rfl
  have hread {pending : Octets} (h : pending.reverse.head? = some 0x2F) :
      (Utf8.decodeLossyFrom none pending.reverse).head? = some '/' := by
    obtain ⟨rest, hrest⟩ := List.head?_eq_some_iff.mp h
    rw [hrest]
    rfl
  fun_induction unescapeFrom pending cs with
  | case1 pending => exact hread h
  | case2 pending a b rest x y hy hx ih => exact ih (hnext _ h)
  | case3 pending a b rest hne ih => exact ih (hnext _ h)
  | case4 pending c rest hne hc ih => exact ih (hnext _ h)
  | case5 pending c rest hne hc ih => rw [List.head?_append, hread h, Option.some_or]

theorem isAbsolute_ofString (h : p.toList.head? = some '/') : (Path.ofString p).isAbsolute = true := by
  obtain ⟨cs, hcs⟩ := List.head?_eq_some_iff.mp h
  have hanchor : (Path.ofString p).anchor ≠ .here := by
    rw [Path.ofString, hcs]
    dsimp only
    unfold Path.anchorOf
    split
    · exact Anchor.noConfusion
    · exact Anchor.noConfusion
    · exact Anchor.noConfusion
    · rename_i hnone
      exact absurd rfl (hnone cs)
  exact bne_iff_ne.mpr hanchor

/-- The spelling of a relative path of a file is read as an empty path or one that begins with a slash. -/
theorem of_parse_render_relative (hrelative : (Path.ofString p).isAbsolute = false)
    (h : parse (ofFile p).render = .ok l) : l.path = "" ∨ l.path.toList.head? = some '/' := by
  have hchars : (ofFile p).render.toList = ['f', 'i', 'l', 'e'] ++ ':' :: '/' :: '/' :: p.toList := by
    simp only [render, ofFile, if_true, hrelative, Bool.false_eq_true, if_false]
    rw [String.toList_append]
    rfl
  have hlower : ['f', 'i', 'l', 'e'].map Char.toLower = ['f', 'i', 'l', 'e'] := by decide
  have hkept : kept ('/' :: '/' :: p.toList) = '/' :: '/' :: kept p.toList := rfl
  unfold parse at h
  rw [hchars, cleaned_append (by decide) (by decide), cutScheme_append (by decide) (by decide), hlower, hkept] at h
  dsimp only at h
  split at h
  · cases h
  rw [if_neg (by decide), if_pos (by decide)] at h
  cases h
  -- Behind the authority the text ends, or one of the characters follows that end an authority.
  have hend := any_head?_dropWhile (fun c => c != '/' && c != '?' && c != '#') (kept p.toList)
  simp only [cutAuthority, ofFile]
  cases hrest : (kept p.toList).dropWhile fun c => c != '/' && c != '?' && c != '#' with
  | nil => exact .inl (by rw [List.takeWhile_nil, unescape, unescapeFrom]; rfl)
  | cons c rest =>
      rw [hrest] at hend
      by_cases hslash : c = '/'
      · right
        rw [hslash, List.takeWhile_cons_of_pos (by decide), unescape, String.toList_ofList, unescapeFrom, if_pos (by decide)]
        · exact head?_unescapeFrom _ rfl
        · exact fun _ _ _ h _ => absurd h (by decide)
      · left
        have hstop : (c != '?' && c != '#') = false := by simpa [hslash] using hend
        rw [List.takeWhile_cons_of_neg (by simp [hstop]), unescape, unescapeFrom]
        rfl

/-- An empty path is relative, and its spelling is read as an empty path. -/
theorem parse_render_empty : parse (ofFile "").render = .ok (ofFile "") := by
  have hrender : (ofFile "").render = "file://" := by decide
  have hempty : unescape [] = "" := by
    rw [unescape, unescapeFrom]
    rfl
  rw [hrender]
  show (Except.ok (ofFile (unescape [])) : Except Authority.Refusal Location) = _
  rw [hempty]

/-- What was read and is no absolute path of a file is read back from its spelling exactly if it is an empty path of a
file, or has another scheme and a path without an escape and without an authority that is refused. -/
theorem spelling_read_back_iff (h : parse s = .ok l)
    (hl : l.scheme ≠ fileScheme ∨ (Path.ofString l.path).isAbsolute = false) :
    parse l.render = .ok l ↔
      if l.scheme = fileScheme then l.path = ""
      else ¬ HasEscape l.path.toList ∧ Authority.check (cutAuthority (kept l.path.toList)).1 = .ok () := by
  obtain ⟨scheme, path⟩ := l
  dsimp only at hl ⊢
  split_ifs with hfile
  · obtain rfl : scheme = fileScheme := hfile
    have hrelative := hl.resolve_left (not_not_intro rfl)
    constructor
    · intro hback
      refine (of_parse_render_relative hrelative hback).resolve_right fun hhead => ?_
      rw [isAbsolute_ofString hhead] at hrelative
      cases hrelative
    · rintro rfl
      exact parse_render_empty
  · rw [parse_render_of_isScheme (isScheme_of_parse h hfile) hfile, ← unescape_eq_self_iff]
    cases Authority.check (cutAuthority (kept path.toList)).1 with
    | error e => exact ⟨nofun, fun ⟨_, hcheck⟩ => nomatch hcheck⟩
    | ok u => exact ⟨fun hback => ⟨congrArg Location.path (Except.ok.inj hback), rfl⟩, fun ⟨hsame, _⟩ => by rw [hsame]; rfl⟩

theorem spelling_read_back_iff_host :
    parse "HTTP://host:80/a%20b?c%2" = .ok ⟨"http", "//host:80/a b?c%2"⟩ ∧
      (parse (render ⟨"http", "//host:80/a b?c%2"⟩) = .ok ⟨"http", "//host:80/a b?c%2"⟩ ↔
        ¬ HasEscape "//host:80/a b?c%2".toList ∧
          Authority.check (cutAuthority (kept "//host:80/a b?c%2".toList)).1 = .ok ()) :=
  have hparse : parse "HTTP://host:80/a%20b?c%2" = .ok ⟨"http", "//host:80/a b?c%2"⟩ := by decide +kernel
  ⟨hparse, spelling_read_back_iff hparse (.inl (by decide))⟩

/-- The first name of a relative path is taken for an authority, an escaped percent sign begins an escape when it is
read again, and an escaped bracket is refused. -/
theorem spelling_not_read_back :
    (parse "src/A.php" = .ok (ofFile "src/A.php") ∧ parse (ofFile "src/A.php").render = .ok (ofFile "/A.php")) ∧
      (parse "untitled:100%2525" = .ok ⟨"untitled", "100%25"⟩ ∧
        parse (render ⟨"untitled", "100%25"⟩) = .ok ⟨"untitled", "100%"⟩) ∧
      parse "http://%5B/x" = .ok ⟨"http", "//[/x"⟩ ∧ parse (render ⟨"http", "//[/x"⟩) = .error .brackets := by
  decide +kernel

end Namesake.Location
