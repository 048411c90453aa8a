import Mathlib.Tactic
import Namesake.Json.Reader
import Namesake.Json.Writer

/-! Tables of texts read back. What `escape` writes for a character `textBody` reads as that character,
whether it stands for itself, for one letter or for one or two groups of digits, so a text in quotes reads
back as itself; and the rows of a written table read back one after the other. -/

namespace Namesake.Json

open Text

/-! ### Texts in quotes -/

theorem hex4?_digits {n : Nat} (h : n < 0x10000) :
    hex4? (Hex.digit (n / 0x1000 % 16)) (Hex.digit (n / 0x100 % 16)) (Hex.digit (n / 0x10 % 16))
      (Hex.digit (n % 16)) = some n := by
  have hmod (m : Nat) : m % 16 < 16 := Nat.mod_lt m (by decide)
  simp only [hex4?, Hex.value?_digit (hmod _), Option.pure_def, Option.bind_eq_bind, Option.bind_some,
    Option.some.injEq]
  omega

theorem not_isHigh_of_char (c : Char) : isHigh c.toNat = false ∧ isLow c.toNat = false := by
  have hv : c.toNat < 0xd800 ∨ 0xdfff < c.toNat ∧ c.toNat < 0x110000 := c.valid
  simp only [isHigh, isLow, Bool.and_eq_false_iff, decide_eq_false_iff_not]
  omega

theorem textBody_unitEscape {n : Nat} (left : Nat) (e : Char) (rest : List Char) (hn : n < 0x10000)
    (hhigh : isHigh n = false) :
    textBody left (unitEscape n ++ e :: rest) = prepend (loneUnit n) (textBody left (e :: rest)) := by
  simp only [unitEscape, List.cons_append, List.nil_append]
  rw [textBody, hex4?_digits hn]
  simp only [hhigh]

theorem textBody_pairEscape {high low : Nat} (left : Nat) (e : Char) (rest : List Char)
    (hhigh : isHigh high = true) (hlow : isLow low = true) :
    textBody left (unitEscape high ++ unitEscape low ++ e :: rest) =
      prepend (joinPair high low) (textBody left (e :: rest)) := by
  have h1 : high < 0x10000 := by
    simp only [isHigh, Bool.and_eq_true, decide_eq_true_eq] at hhigh
    omega
  have h2 : low < 0x10000 := by
    simp only [isLow, Bool.and_eq_true, decide_eq_true_eq] at hlow
    omega
  have hsecond : secondUnit? (unitEscape low ++ e :: rest) = some (some low, e :: rest) := by
    simp only [unitEscape, List.cons_append, List.nil_append, secondUnit?, hex4?_digits h2]
  rw [List.append_assoc]
  conv_lhs => rw [unitEscape]
  rw [unitEscape] at hsecond ⊢
  simp only [List.cons_append, List.nil_append] at hsecond ⊢
  rw [textBody, hex4?_digits h1]
  simp only [hhigh]
  split
  · rename_i heq
    rw [hsecond] at heq
    cases heq
  · rename_i heq
    rw [hsecond] at heq
    cases heq
    rw [if_pos hlow]
  · rename_i hne
    exact absurd hsecond (hne _ _ rfl)

theorem textBody_letter (left : Nat) {letter c : Char} (rest : List Char) (hu : letter ≠ 'u')
    (h : simpleEscape? letter = some c) :
    textBody left ('\\' :: letter :: rest) = prepend c (textBody left rest) := by
  rw [textBody]
  · simp only [if_neg hu, h]
  · exact fun _ _ _ _ _ _ heq => absurd heq hu

theorem textBody_bare (left : Nat) {c : Char} (rest : List Char) (hquote : c ≠ '"') (hslash : c ≠ '\\')
    (hc : 0x20 ≤ c.toNat) : textBody left (c :: rest) = prepend c (textBody left rest) := by
  rw [textBody]
  · rw [if_neg (by omega)]
  · exact hquote
  · exact fun h _ => hslash h
  · exact fun _ _ _ _ _ _ h _ => hslash h
  · exact fun _ _ h _ => hslash h

/-- What is written for a character is read as this character. -/
theorem textBody_escape (left : Nat) (c e : Char) (rest : List Char) :
    textBody left (escape c ++ e :: rest) = prepend c (textBody left (e :: rest)) := by
  unfold escape
  split_ifs with hquote hslash h3 h4 h5 h6 h7
  · exact textBody_letter left _ (by decide) (by rw [hquote]; rfl)
  · exact textBody_letter left _ (by decide) (by rw [hslash]; rfl)
  · exact textBody_letter left _ (by decide) (h3 ▸ rfl)
  · exact textBody_letter left _ (by decide) (h4 ▸ rfl)
  · exact textBody_letter left _ (by decide) (h5 ▸ rfl)
  · exact textBody_letter left _ (by decide) (h6 ▸ rfl)
  · exact textBody_letter left _ (by decide) (h7 ▸ rfl)
  · dsimp only
    obtain ⟨hhigh, hlow⟩ := not_isHigh_of_char c
    split_ifs with hplain hsmall
    · exact textBody_bare left _ hquote hslash hplain.1
    · have hlone : loneUnit c.toNat = c := by
        rw [loneUnit, hhigh, hlow]
        exact Char.ofNat_toNat c
      rw [textBody_unitEscape left e rest hsmall hhigh, hlone]
    · have hv : c.toNat < 0xd800 ∨ 0xdfff < c.toNat ∧ c.toNat < 0x110000 := c.valid
      have hpair : joinPair (0xD800 + (c.toNat - 0x10000) / 0x400) (0xDC00 + (c.toNat - 0x10000) % 0x400) = c := by
        have hn : 0x10000 + (0xD800 + (c.toNat - 0x10000) / 0x400 - 0xD800) * 0x400 +
            (0xDC00 + (c.toNat - 0x10000) % 0x400 - 0xDC00) = c.toNat := by omega
        rw [joinPair, hn, Char.ofNat_toNat]
      rw [textBody_pairEscape left e rest ?_ ?_, hpair]
      · simp only [isHigh, Bool.and_eq_true, decide_eq_true_eq]
        omega
      · simp only [isLow, Bool.and_eq_true, decide_eq_true_eq]
        omega

theorem textBody_escapes (left : Nat) (cs rest : List Char) :
    textBody left (cs.flatMap escape ++ '"' :: rest) = .ok (cs, rest) := by
  induction cs with
  | nil => rw [List.flatMap_nil, List.nil_append, textBody_quote]
  | cons c cs ih =>
      rw [List.flatMap_cons, List.append_assoc]
      obtain ⟨e, more, hmore⟩ : ∃ e more, cs.flatMap escape ++ '"' :: rest = e :: more :=
        List.exists_cons_of_ne_nil (by simp)
      rw [hmore, textBody_escape, ← hmore, ih, prepend]

/-- A text in quotes is read as this text. -/
theorem value_quote (budget : Nat) (s : String) (rest : List Char) :
    value (budget + 1) (quote s ++ rest) = .ok (.text s, rest) := by
  simp only [quote, List.cons_append, List.append_assoc, List.nil_append]
  rw [value_text, textBody_escapes]
  simp only [Except.map, String.ofList_toList]

/-! ### Tables -/

@[simp] theorem skip_of_not_blank {c : Char} {cs : List Char} (h : isBlank c = false) :
    skip (c :: cs) = c :: cs := by
  simp only [skip, List.dropWhile_cons, h, Bool.false_eq_true, if_false]

@[simp] theorem skip_of_blank {c : Char} {cs : List Char} (h : isBlank c = true) :
    skip (c :: cs) = skip cs := by
  simp only [skip, List.dropWhile_cons, h, if_true]

/-- The fields with the rows of a table put in, one after the other. -/
def withRows (found : Fields Value) (rows : Fields String) : Fields Value :=
  rows.foldl (fun fields row => Fields.set row.1 (.text row.2) fields) found

theorem skip_renderRow (row : String × String) (rest : List Char) :
    skip (renderRow row ++ rest) = quote row.1 ++ ':' :: ' ' :: (quote row.2 ++ rest) := by
  simp only [renderRow, quote, List.cons_append, List.append_assoc, List.nil_append]
  rw [skip_of_blank (by decide), skip_of_blank (by decide), skip_of_blank (by decide),
    skip_of_not_blank (by decide)]

/-- One row is read, and what follows it decides how to go on. -/
theorem members_renderRow (budget : Nat) (found : Fields Value) (row : String × String) (rest : List Char) :
    members (budget + 2) found (skip (renderRow row ++ rest)) =
      match skip rest with
      | '\x7d' :: r => .ok (Fields.set row.1 (.text row.2) found, r)
      | ',' :: r => members (budget + 1) (Fields.set row.1 (.text row.2) found) (skip r)
      | r => .error ⟨.noComma, r.length⟩ := by
  rw [skip_renderRow, quote]
  simp only [List.cons_append, List.append_assoc, List.nil_append]
  rw [members]
  simp only [textBody_escapes]
  rw [skip_of_not_blank (by decide)]
  simp only
  have hskip : skip (' ' :: (quote row.2 ++ rest)) = quote row.2 ++ rest := by
    rw [skip_of_blank (by decide), quote]
    exact skip_of_not_blank (by decide)
  have hname : String.ofList row.1.toList = row.1 := String.ofList_toList
  rw [hskip, value_quote]
  generalize String.ofList row.1.toList = name at hname ⊢
  subst hname
  rfl

theorem members_renderRows (budget : Nat) (found : Fields Value) (row : String × String) (rows : Fields String)
    (rest : List Char) (hbudget : rows.length + 2 ≤ budget) :
    members budget found (skip (renderRows (row :: rows) ++ '\n' :: '\x7d' :: rest)) =
      .ok (withRows found (row :: rows), rest) := by
  induction rows generalizing budget found row with
  | nil =>
      obtain ⟨n, rfl⟩ := Nat.exists_eq_add_of_le' hbudget
      rw [renderRows, List.length_nil, Nat.zero_add, members_renderRow, skip_of_blank (by decide),
        skip_of_not_blank (by decide)]
      rfl
  | cons next rows ih =>
      rw [List.length_cons] at hbudget
      obtain ⟨n, rfl⟩ : ∃ n, budget = n + 2 := ⟨budget - 2, by omega⟩
      rw [renderRows, List.append_assoc, List.cons_append, members_renderRow, skip_of_not_blank (by decide)]
      · simp only
        rw [ih (n + 1) _ next (by omega)]
        rfl
      · simp

theorem skip_renderRows (row : String × String) (rows : Fields String) (rest : List Char) :
    ∃ tail, skip (renderRows (row :: rows) ++ rest) = '"' :: tail := by
  cases rows with
  | nil => exact ⟨_, by rw [renderRows, skip_renderRow, quote]; rfl⟩
  | cons next rows =>
      rw [renderRows, List.append_assoc, skip_renderRow, quote]
      · exact ⟨_, rfl⟩
      · simp

theorem length_renderRows (rows : Fields String) : rows.length ≤ (renderRows rows).length := by
  induction rows using renderRows.induct with
  | case1 => exact Nat.zero_le _
  | case2 row => simp [renderRows, renderRow]
  | case3 row rest _ ih =>
      rw [renderRows, List.length_append, List.length_cons, List.length_cons, renderRow]
      · simp only [List.length_append, List.length_cons]
        omega
      · assumption

theorem value_renderRows (budget : Nat) (row : String × String) (rows : Fields String)
    (hbudget : rows.length + 2 ≤ budget) :
    value (budget + 1) ('\x7b' :: (renderRows (row :: rows) ++ ['\n', '\x7d'])) =
      .ok (.object (withRows [] (row :: rows)), []) := by
  have hrows := members_renderRows budget [] row rows [] hbudget
  obtain ⟨tail, htail⟩ := skip_renderRows row rows ['\n', '\x7d']
  rw [htail] at hrows
  rw [value]
  simp only [htail]
  split
  · rename_i heq
    exact absurd (List.cons.inj heq).1 (by decide)
  · rw [hrows]
    rfl

/-- A written table is read as the object with its rows. -/
theorem parse_renderTable (rows : Fields String) :
    parse (renderTable rows) = .ok (.object (withRows [] (sortRows rows))) := by
  unfold renderTable
  cases hsorted : sortRows rows with
  | nil => rfl
  | cons row rest =>
      have hle := length_renderRows (row :: rest)
      have hvalue := value_renderRows (renderRows (row :: rest) ++ ['\n', '\x7d']).length.succ row rest (by
        rw [List.length_append]
        simp only [List.length_cons, List.length_nil] at hle ⊢
        omega)
      simp only [parse, parseChars, String.toList_ofList, List.cons_append, List.head?_cons]
      rw [if_neg (by decide), skip_of_not_blank (by decide), List.length_cons, hvalue]
      rfl

theorem mem_set {α : Type} {name : String} {v : α} {fields : Fields α} {f : String × α}
    (h : f ∈ Fields.set name v fields) : f = (name, v) ∨ f ∈ fields := by
  induction fields with
  | nil => exact .inl (List.mem_singleton.mp h)
  | cons g rest ih =>
      obtain ⟨n, w⟩ := g
      rw [Fields.set] at h
      split_ifs at h with hn
      · rw [List.mem_cons, hn] at h
        rcases h with h | h
        · exact .inl h
        · exact .inr (List.mem_cons_of_mem _ h)
      · rcases List.mem_cons.mp h with rfl | h
        · exact .inr List.mem_cons_self
        · exact (ih h).imp_right (List.mem_cons_of_mem _)

theorem mem_of_get? {α : Type} {name : String} {v : α} {fields : Fields α}
    (h : Fields.get? name fields = some v) : (name, v) ∈ fields := by
  induction fields with
  | nil => cases h
  | cons g rest ih =>
      obtain ⟨n, w⟩ := g
      rw [Fields.get?] at h
      split_ifs at h with hn
      · cases h
        rw [hn]
        exact List.mem_cons_self
      · exact List.mem_cons_of_mem _ (ih h)

/-! ### Fields with distinct names -/

variable {α : Type} {fields fields' : Fields α}

theorem map_fst_set {name : String} (v : α) (h : name ∈ fields.map Prod.fst) :
    (Fields.set name v fields).map Prod.fst = fields.map Prod.fst := by
  induction fields with
  | nil => cases h
  | cons f rest ih =>
      obtain ⟨n, w⟩ := f
      rw [Fields.set]
      by_cases hn : n = name
      · rw [if_pos hn]
        rfl
      · have hrest := (List.mem_cons.mp h).resolve_left fun heq => hn heq.symm
        rw [if_neg hn, List.map_cons, ih hrest]
        rfl

theorem set_of_not_mem {name : String} (v : α) (h : name ∉ fields.map Prod.fst) :
    Fields.set name v fields = fields ++ [(name, v)] := by
  induction fields with
  | nil => rfl
  | cons f rest ih =>
      obtain ⟨n, w⟩ := f
      rw [List.map_cons, List.mem_cons, not_or] at h
      rw [Fields.set, if_neg fun heq => h.1 heq.symm, ih h.2, List.cons_append]

theorem nodup_set (h : (fields.map Prod.fst).Nodup) (name : String) (v : α) :
    ((Fields.set name v fields).map Prod.fst).Nodup := by
  by_cases hmem : name ∈ fields.map Prod.fst
  · rw [map_fst_set v hmem]
    exact h
  · rw [set_of_not_mem v hmem, List.map_append, List.map_singleton, ← List.concat_eq_append]
    exact h.concat hmem

theorem nodup_erase (h : (fields.map Prod.fst).Nodup) (name : String) :
    ((Fields.erase name fields).map Prod.fst).Nodup :=
  h.sublist (List.filter_sublist.map Prod.fst)

theorem get?_erase (name key : String) (fields : Fields α) :
    Fields.get? key (Fields.erase name fields) = if key = name then none else Fields.get? key fields := by
  induction fields with
  | nil => exact (ite_self none).symm
  | cons f rest ih =>
      obtain ⟨n, w⟩ := f
      rw [Fields.erase] at ih ⊢
      by_cases hn : n = name
      · rw [List.filter_cons_of_neg (by simp [hn]), ih]
        split_ifs with hkey
        · rfl
        · rw [Fields.get?, if_neg fun heq => hkey (heq.symm.trans hn)]
      · rw [List.filter_cons_of_pos (by simp [hn]), Fields.get?, Fields.get?, ih]
        split_ifs with h1 h2
        · exact absurd (h1.trans h2) hn
        · rfl
        · rfl
        · rfl

/-- With distinct names a field holds what is listed under its name. -/
theorem get?_eq_some_iff (h : (fields.map Prod.fst).Nodup) {name : String} {v : α} :
    Fields.get? name fields = some v ↔ (name, v) ∈ fields := by
  refine ⟨mem_of_get?, fun hmem => ?_⟩
  induction fields with
  | nil => cases hmem
  | cons f rest ih =>
      obtain ⟨n, w⟩ := f
      rw [List.map_cons, List.nodup_cons] at h
      rw [Fields.get?]
      rcases List.mem_cons.mp hmem with heq | hmem
      · cases heq
        rw [if_pos rfl]
      · have hne : n ≠ name := by
          rintro rfl
          exact h.1 (List.mem_map.mpr ⟨_, hmem, rfl⟩)
        rw [if_neg hne]
        exact ih h.2 hmem

/-- The order of fields with distinct names does not matter. -/
theorem get?_perm (h : (fields.map Prod.fst).Nodup) (hperm : fields.Perm fields') (name : String) :
    Fields.get? name fields = Fields.get? name fields' := by
  have h' : (fields'.map Prod.fst).Nodup := (hperm.map Prod.fst).nodup_iff.mp h
  apply Option.ext
  intro v
  rw [get?_eq_some_iff h, get?_eq_some_iff h', hperm.mem_iff]

/-- Rows with distinct names make an object that lists them. -/
theorem withRows_of_nodup {found : Fields Value} {rows : Fields String}
    (h : ((found.map Prod.fst) ++ rows.map Prod.fst).Nodup) :
    withRows found rows = found ++ rows.map fun row => (row.1, .text row.2) := by
  induction rows generalizing found with
  | nil => exact (List.append_nil found).symm
  | cons row rows ih =>
      have hnew : row.1 ∉ found.map Prod.fst := by
        intro hmem
        exact List.disjoint_of_nodup_append h hmem List.mem_cons_self
      rw [withRows, List.foldl_cons, set_of_not_mem _ hnew]
      refine (ih ?_).trans ?_
      · rw [List.map_append, List.append_assoc]
        exact h
      · rw [List.append_assoc]
        rfl

end Namesake.Json
