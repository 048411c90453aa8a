import Namesake.Proofs.FirstClause
import Namesake.Proofs.Patch
import Namesake.Proofs.TypeNames

/-! A text that has been corrected needs no further correction. The edits of the namespace and of the name lie apart, so
they may be made one after the other, the later one first. Each of them settles what it is about, leaves the other one as it
was, and keeps what the other one has settled. -/

namespace Namesake

open Syntax Text Php Php.Lexer

/-! ### Edits of a text -/

theorem Edit.Cuts.isBorder {e : Edit} {s : String} {front old back : List Char} (h : e.Cuts s front old back) :
    Utf8.IsBorder s.toList e.offset ∧ Utf8.IsBorder s.toList e.stop := by
  refine ⟨⟨front, old ++ back, h.text, ?_⟩, ⟨front ++ old, back, ?_, ?_⟩⟩
  · rw [h.offset, width_eq]
  · rw [h.text, List.append_assoc]
  · rw [h.stop, ← width_append, width_eq]

theorem Edit.applyAll_nil (s : String) : applyAll [] s = .ok s := by
  have hoctets : applyOctets [] (Utf8.encode s) = .ok (Utf8.encode s) := by
    rw [applyOctets, show sorted [] = [] from List.mergeSort_nil]
    rfl
  rw [applyAll, hoctets]
  simp only [Utf8.decode?_encode]

/-- Edits between characters that lie apart can be made. -/
theorem Edit.exists_applyAll {es : List Edit} {s : String} (hcuts : ∀ e ∈ es, ∃ front old back, e.Cuts s front old back)
    (hapart : (sorted es).Pairwise Before) : ∃ s', applyAll es s = .ok s' := by
  have hborders : ∀ e ∈ es, Utf8.IsBorder s.toList e.offset ∧ Utf8.IsBorder s.toList e.stop := by
    intro e he
    obtain ⟨front, old, back, h⟩ := hcuts e he
    exact h.isBorder
  have hfit : ∀ e ∈ es, e.stop ≤ (Utf8.encode s).length := fun e he => (hborders e he).2.le_length
  obtain ⟨out, hout⟩ : ∃ out, weave (Utf8.encode s) 0 (sorted es) = Utf8.encodeChars out :=
    exists_weave (Utf8.isBorder_zero s.toList) fun e he => hborders e (mem_sorted.mp he)
  refine ⟨String.ofList out, ?_⟩
  rw [applyAll, applyOctets_of_fits ((not_overlapping_iff _).mpr hapart) hfit, hout, ← Utf8.encode_ofList]
  simp only [Utf8.decode?_encode]

namespace Corrections

/-- The edit of the namespace, if there is one. -/
def spaceEdit (t : Tree) (space : String) : Field.Checked (Option Edit) :=
  (fixSpace t space).map (Option.map (·.edit))

def nameEdit (t : Tree) (name : String) : Field.Checked (Option Edit) :=
  (fixName t name).map (Option.map (·.edit))

variable {t t' : Tree} {c : ClassName} {a b : Option Edit}

theorem ofTree_of_edits (ha : spaceEdit t c.space = .ok a) (hb : nameEdit t c.name = .ok b) :
    ∃ k, ofTree t c = .ok k ∧ k.edits = a.toList ++ b.toList := by
  obtain ⟨x, hspace, rfl⟩ := map_eq_ok_iff.mp ha
  obtain ⟨y, hname, rfl⟩ := map_eq_ok_iff.mp hb
  refine ⟨⟨c, x, y⟩, ?_, rfl⟩
  rw [ofTree, hspace, hname]
  rfl

/-- What is written for a clause depends on its place, its name and whether it has a body. -/
theorem spaceEdit_congr {space : String} (hleading : t'.leading? = t.leading?)
    (h : Option.Rel (fun c c' : Clause => c'.name = c.name ∧ c'.braced = c.braced ∧ c'.start = c.start ∧
      c'.headerStop = c.headerStop) t.clause? t'.clause?) : spaceEdit t' space = spaceEdit t space := by
  unfold spaceEdit fixSpace
  generalize t.clause? = x at h ⊢
  generalize t'.clause? = y at h ⊢
  cases h with
  | none => rw [hleading]
  | @some c c' hc =>
      obtain ⟨hname, hbraced, hstart, hstop⟩ := hc
      dsimp only [replacement]
      rw [hname, hbraced, hstart, hstop]
      split_ifs
      · rfl
      · rfl
      · cases Edit.check c.start (c.headerStop - c.start) ("namespace " ++ space) <;> rfl
      · cases Edit.check c.start (c.headerStop - c.start) (statement space) <;> rfl

theorem nameEdit_congr {name : String}
    (h : Option.Rel (fun d d' : Declaration => d'.name = d.name) t.declaration? t'.declaration?) :
    nameEdit t' name = nameEdit t name := by
  unfold nameEdit fixName
  generalize t.declaration? = x at h ⊢
  generalize t'.declaration? = y at h ⊢
  cases h with
  | none => rfl
  | @some d d' hd =>
      dsimp only
      rw [hd]
      cases d.name with
      | none => rfl
      | some n =>
          dsimp only
          split_ifs
          · rfl
          · cases Edit.check n.start (Utf8.size n.text) name <;> rfl

end Corrections

namespace Php

open Corrections

variable {s s₁ s' : String} {space name : String} {seg : String} {segments : List String}

/-! ### What is settled -/

def SpaceSettled (s space : String) : Prop :=
  space = "" ∨ ∃ c, (parse s).clause? = some c ∧ c.name = some space

def NameSettled (s name : String) : Prop :=
  ∀ d ∈ (parse s).declaration?, ∀ n ∈ d.name, n.text = name

theorem SpaceSettled.fixSpace_eq (h : SpaceSettled s space) : fixSpace (parse s) space = .ok none := by
  by_cases hne : space = ""
  · rw [fixSpace, if_pos hne]
  obtain ⟨c, hc, hname⟩ := h.resolve_left hne
  rw [fixSpace, if_neg hne, hc]
  exact if_pos hname

theorem NameSettled.fixName_eq (h : NameSettled s name) : fixName (parse s) name = .ok none := by
  unfold fixName
  cases hd : (parse s).declaration? with
  | none => rfl
  | some d =>
      dsimp only
      cases hn : d.name with
      | none => rfl
      | some n => exact if_pos (h d hd n hn)

/-- A text of which the first type has the same name is as settled. -/
theorem NameSettled.of_redeclares {start stop : Nat} (h : NameSettled s name) (hr : Redeclares s s' start stop) :
    NameSettled s' name := by
  intro d' hd' n' hn'
  rw [Redeclares, Option.mem_def.mp hd'] at hr
  generalize hx : (parse s).declaration? = x at hr
  cases hr with
  | some hd =>
      obtain ⟨n, m, hn, hm, htext, -⟩ := hd
      obtain rfl : n' = m := Option.some.inj (hn'.symm.trans hm)
      rw [htext]
      exact h _ hx n hn

theorem Ordered.apart_of_mem {ts : List Token} (h : Ordered ts) {t u : Token} (ht : t ∈ ts) (hu : u ∈ ts) :
    t = u ∨ t.stop ≤ u.start ∨ u.stop ≤ t.start := by
  obtain ⟨as, bs, rfl⟩ := List.append_of_mem hu
  rcases List.mem_append.mp ht with ht | ht
  · exact .inr (.inl (h.before ht))
  rcases List.mem_cons.mp ht with rfl | ht
  · exact .inl rfl
  · exact .inr (.inr (h.after ht))

/-! ### The edit of the namespace -/

/-- The edit of the namespace takes `old` out of the text from between `front` and `back`, and settles the namespace. -/
structure SettlesSpace (s space : String) (a : Edit) (front old back : List Char) : Prop where
  edit : spaceEdit (parse s) space = .ok (some a)
  cuts : a.Cuts s front old back
  headerStop : ∀ c ∈ (parse s).clause?, c.headerStop = a.stop
  /-- It begins in no token. -/
  between : ∀ t ∈ tokens s, t.start < a.offset → t.stop ≤ a.offset
  /-- It settles the namespace, and the first type is declared as it was. -/
  settles : ∀ s', a.Turns s s' → SpaceSettled s' space ∧ Redeclares s s' (width front) (width front + width old)

/-- A clause that is put in behind the tag settles the namespace. -/
theorem exists_settlesSpace_of_none (hcode : ∃ t ∈ tokens s, t.lexeme ≠ .text)
    (hsegments : ∀ t ∈ seg :: segments, isIdentifier t = true) (hspace : space = "\\".intercalate (seg :: segments))
    (hne : space ≠ "") (hc : (parse s).clause? = none) : ∃ a front old back, SettlesSpace s space a front old back := by
  obtain ⟨front, back, fs, u, htagged⟩ := exists_tagged hcode
  have hcuts : Edit.Cuts ⟨width front, 0, insertion space (width front)⟩ s front [] back := ⟨htagged.text, rfl, rfl⟩
  refine ⟨_, front, [], back, ?_, hcuts, by rw [hc]; nofun, fun t ht hlt => ?_, fun s' hs' => ?_⟩
  · rw [spaceEdit, fixSpace, if_neg hne, hc, htagged.leading?_eq]
    rfl
  · have hu : u ∈ tokens s := htagged.tokens ▸ List.mem_append_right _ List.mem_cons_self
    have hsolid := (ordered_tokens s).solid u hu
    have hstop := htagged.stop
    rcases (ordered_tokens s).apart_of_mem ht hu with rfl | hle | hle
    all_goals
      dsimp only at hlt ⊢
      omega
  · have hinsert : (insertion space (width front)).toList =
        '\n' :: ("namespace".toList ++ (spelled seg segments ++ [';', '\n'])) := by
      rw [insertion, if_neg htagged.width_pos.ne', hspace, spelled, List.cons_append, List.append_assoc]
      exact Reconciler.toList_line seg segments
    obtain ⟨⟨c, hclause, hname⟩, hdeclared⟩ := htagged.finds hsegments (by rw [hs'.toList_eq hcuts, ← hinsert])
    exact ⟨.inr ⟨c, hclause, by rw [hname, hspace]⟩, hdeclared⟩

/-- A header that takes the place of the one of the clause settles the namespace. -/
theorem exists_settlesSpace_of_clause (hsegments : ∀ t ∈ seg :: segments, isIdentifier t = true)
    (hspace : space = "\\".intercalate (seg :: segments)) (hplain : HasPlainHeader s space) (hne : space ≠ "") {c : Clause}
    (hc : (parse s).clause? = some c) (hname : c.name ≠ some space) :
    ∃ a front old back, SettlesSpace s space a front old back := by
  obtain ⟨as, key, ms, cs, hheader⟩ := exists_headerTokens hc
  obtain ⟨front, old, back, htext, hstart, hstop, hfinds⟩ := exists_replaced hc (hplain c hc hne hname) hsegments
  have hcuts : Edit.Cuts ⟨width front, width old, replacement space c⟩ s front old back := ⟨htext, rfl, rfl⟩
  refine ⟨_, front, old, back, ?_, hcuts, ?_, fun t ht hlt => ?_, fun s' hs' => ?_⟩
  · have hlength : ((width front : Int) + width old - width front) = width old := by omega
    rw [spaceEdit, fixSpace, if_neg hne, hc]
    dsimp only
    rw [if_neg hname, hstart, hstop, hlength, Edit.check_natCast]
    rfl
  · rw [hc]
    rintro _ ⟨⟩
    rw [hcuts.stop, hstop, Nat.cast_add]
  · have hkey : key ∈ tokens s := hheader.tokens ▸ List.mem_append_right _ List.mem_cons_self
    have hoffset : key.start = width front := Int.ofNat.inj (hheader.start.symm.trans hstart)
    have hsolid := (ordered_tokens s).solid key hkey
    rcases (ordered_tokens s).apart_of_mem ht hkey with rfl | hle | hle
    all_goals
      dsimp only at hlt ⊢
      omega
  · obtain ⟨⟨c', hc', hname'⟩, hdeclared⟩ := hfinds s' (by rw [hs'.toList_eq hcuts, hspace])
    exact ⟨.inr ⟨c', hc', by rw [hname', hspace]⟩, hdeclared⟩

/-- A namespace that is not settled is settled by its edit. -/
theorem exists_settlesSpace (hcode : ∃ t ∈ tokens s, t.lexeme ≠ .text)
    (hsegments : ∀ t ∈ seg :: segments, isIdentifier t = true) (hspace : space = "\\".intercalate (seg :: segments))
    (hplain : HasPlainHeader s space) (h : ¬ SpaceSettled s space) : ∃ a front old back, SettlesSpace s space a front old back := by
  have hne : space ≠ "" := fun hempty => h (.inl hempty)
  cases hc : (parse s).clause? with
  | none => exact exists_settlesSpace_of_none hcode hsegments hspace hne hc
  | some c =>
      have hname : c.name ≠ some space := fun hname => h (.inr ⟨c, hc, hname⟩)
      exact exists_settlesSpace_of_clause hsegments hspace hplain hne hc hname

/-! ### The edit of the name -/

/-- The edit of the name takes `old` out of the text from between `front` and `back`, and settles the name. -/
structure SettlesName (s name : String) (b : Edit) (front old back : List Char) : Prop where
  edit : nameEdit (parse s) name = .ok (some b)
  cuts : b.Cuts s front old back
  token : ∃ t ∈ tokens s, t.start = b.offset ∧ t.stop = b.stop
  declared : ∃ d ∈ (parse s).declaration?, ∃ n ∈ d.name, n.start = b.offset
  /-- It settles the name by a renaming. -/
  settles : ∀ s', b.Turns s s' → NameSettled s' name ∧
    ∃ as bs bs' t t', Renames s s' as bs bs' t t' front old name.toList back

theorem SettlesName.offset_lt_stop {b : Edit} {front old back : List Char} (h : SettlesName s name b front old back) :
    b.offset < b.stop := by
  obtain ⟨t, ht, hstart, hstop⟩ := h.token
  have hsolid := (ordered_tokens s).solid t ht
  rwa [hstart, hstop] at hsolid

/-- A name that is not settled is settled by its edit. -/
theorem exists_settlesName (hname : isIdentifier name = true) (hloose : LooseName s name) (h : ¬ NameSettled s name) :
    ∃ b front old back, SettlesName s name b front old back := by
  obtain ⟨d, hd, n, hn, hne⟩ : ∃ d ∈ (parse s).declaration?, ∃ n ∈ d.name, n.text ≠ name := by
    simpa only [NameSettled, not_forall, exists_prop] using h
  obtain ⟨as, bs, t, front, old, back, htext, rfl, hrenames⟩ := exists_renames hd hn hne hloose hname
  have hcuts : Edit.Cuts ⟨width front, width old, name⟩ s front old back := ⟨htext, rfl, rfl⟩
  refine ⟨_, front, old, back, ?_, hcuts, ⟨t, ?_⟩, ⟨d, hd, _, hn, rfl⟩, fun s' hs' => ?_⟩
  · have hsize : Utf8.size (String.ofList old) = width old := by
      rw [← Utf8.length_encode, Utf8.encode_ofList, width_eq]
    rw [nameEdit, fixName, Option.mem_def.mp hd]
    dsimp only
    rw [Option.mem_def.mp hn]
    dsimp only
    rw [if_neg hne, hsize, Edit.check_natCast]
    rfl
  · obtain ⟨bs', t', hr⟩ := hrenames (String.ofList (front ++ (name.toList ++ back))) String.toList_ofList
    exact ⟨hr.tokens ▸ List.mem_append_right _ List.mem_cons_self, hr.start_eq, hr.stop_eq⟩
  · obtain ⟨bs', t', hr⟩ := hrenames s' (hs'.toList_eq hcuts)
    refine ⟨?_, as, bs, bs', t, t', hr⟩
    obtain ⟨d', hd', hn'⟩ := hr.exists_declaration hd hn
    rintro _ hd'' n'' hn''
    obtain rfl := Option.some.inj (hd''.symm.trans hd')
    obtain rfl := Option.some.inj (hn''.symm.trans hn')
    exact String.ofList_toList

/-! ### One edit after the other -/

namespace Renames

variable {as bs bs' : List Token} {t t' : Token} {front old new back : List Char}

theorem exists_code (h : Renames s s₁ as bs bs' t t' front old new back) : ∃ u ∈ Php.tokens s₁, u.lexeme ≠ .text := by
  obtain ⟨u, hu, hlex⟩ := h.enter
  exact ⟨u, h.tokens' ▸ List.mem_append_left _ hu, by rw [hlex]; nofun⟩

/-- A renaming keeps what is settled about the namespace. -/
theorem spaceSettled_iff (h : Renames s s₁ as bs bs' t t' front old new back) : SpaceSettled s₁ space ↔ SpaceSettled s space := by
  have hrel := h.rel_clause
  rw [SpaceSettled, SpaceSettled]
  generalize (parse s).clause? = x at hrel ⊢
  generalize (parse s₁).clause? = y at hrel ⊢
  cases hrel with
  | none => rfl
  | some hc => simp [hc.1.1]

/-- A renaming behind the header of the clause leaves the edit of the namespace as it was. -/
theorem spaceEdit_eq (h : Renames s s₁ as bs bs' t t' front old new back)
    (hle : ∀ c ∈ (parse s).clause?, c.headerStop ≤ width front) : spaceEdit (parse s₁) space = spaceEdit (parse s) space := by
  refine spaceEdit_congr h.leading?_eq ?_
  have hrel := h.rel_clause
  generalize (parse s).clause? = x at hrel hle ⊢
  generalize (parse s₁).clause? = y at hrel ⊢
  cases hrel with
  | none => exact .none
  | some hc =>
      obtain ⟨⟨hname, hbraced⟩, hplace⟩ := hc
      obtain ⟨hstart, hstop⟩ := hplace (hle _ rfl)
      exact .some ⟨hname, hbraced, hstart, hstop⟩

/-- A renaming behind a plain header leaves it plain. -/
theorem hasPlainHeader (h : Renames s s₁ as bs bs' t t' front old new back)
    (hle : ∀ c ∈ (parse s).clause?, c.headerStop ≤ width front) (hplain : HasPlainHeader s space) : HasPlainHeader s₁ space := by
  intro c' hc' hne hname'
  have hrel := h.rel_clause
  rw [Option.mem_def.mp hc'] at hrel
  generalize hx : (parse s).clause? = x at hrel
  cases hrel with
  | some hc =>
      obtain ⟨⟨hname, hbraced⟩, hplace⟩ := hc
      obtain ⟨hstart, hstop⟩ := hplace (hle _ hx)
      obtain ⟨vs, key, ms, cs, hheader⟩ := exists_headerTokens hx
      exact h.plainHeader (hplain _ hx hne (hname ▸ hname')) hheader.start_lt_headerStop (hle _ hx) hstart hstop hbraced hname

end Renames

section

variable {front old new back : List Char} {b : Edit} (hs : s.toList = front ++ (old ++ back))
  (hs₁ : s₁.toList = front ++ (new ++ back)) (hr : Redeclares s s₁ (width front) (width front + width old))
  (hb : ∃ d ∈ (parse s).declaration?, ∃ n ∈ d.name, n.start = b.offset) (hlt : b.offset < width front)

include hr hb hlt

/-- What is declared in front of the namespace is declared where it was. -/
theorem rel_declaration_of_redeclares :
    Option.Rel (fun d d' : Declaration => d'.name = d.name) (parse s).declaration? (parse s₁).declaration? := by
  obtain ⟨d, hd, n, hn, hstart⟩ := hb
  rw [Redeclares, Option.mem_def.mp hd] at hr
  rw [Option.mem_def.mp hd]
  generalize (parse s₁).declaration? = y at hr ⊢
  cases hr with
  | some hd' =>
      obtain ⟨m, m', hm, hm', htext, hplace⟩ := hd'
      obtain rfl : n = m := Option.some.inj (hn.symm.trans hm)
      obtain ⟨-, hstart'⟩ | hle := hplace
      · refine .some ?_
        rw [hm, hm', Option.some.injEq, NameAt.mk.injEq]
        exact ⟨hstart', htext⟩
      · omega

include hs hs₁

/-- A name in front of the namespace is as loose as it was. -/
theorem LooseName.of_redeclares (hloose : LooseName s name) : LooseName s₁ name := by
  obtain ⟨d, hd, n, hn, hstart⟩ := id hb
  have hrel := rel_declaration_of_redeclares hr hb hlt
  intro d' hd' n' hn' hne front' back' hsplit hwidth
  rw [Option.mem_def.mp hd, Option.mem_def.mp hd'] at hrel
  cases hrel with
  | some heq =>
      obtain rfl : n = n' := Option.some.inj (hn.symm.trans (heq.symm.trans hn'))
      rw [hs₁] at hsplit
      obtain ⟨mid, rfl, -⟩ := exists_append_of_width hsplit.symm (by omega)
      exact hloose d hd n hn hne front' (mid ++ (old ++ back)) (by rw [hs, List.append_assoc]) hwidth

end

section

variable {a b : Edit} {front old back front' old' back' : List Char} (ha : SettlesSpace s space a front old back)
  (hb : SettlesName s name b front' old' back')

include ha hb

/-- The two edits lie apart. -/
theorem SettlesSpace.apart : Edit.Before a b ∨ Edit.Before b a := by
  obtain ⟨t, ht, hstart, hstop⟩ := hb.token
  by_cases hlt : b.offset < a.offset
  · have hle := ha.between t ht (hstart ▸ hlt)
    exact .inr (hstop.symm.trans_le hle)
  · obtain ⟨d, hd, n, hn, hn'⟩ := hb.declared
    have hr := (ha.settles (String.ofList (front ++ (a.replacement.toList ++ back)))
      ⟨front, old, back, ha.cuts, String.toList_ofList⟩).2
    rw [Redeclares, Option.mem_def.mp hd] at hr
    generalize (parse (String.ofList (front ++ (a.replacement.toList ++ back)))).declaration? = y at hr
    have hoffset := ha.cuts.offset
    cases hr with
    | some hd' =>
        obtain ⟨m, m', hm, -, -, ⟨hlt', -⟩ | hle⟩ := hd'
        all_goals obtain rfl : n = m := Option.some.inj (hn.symm.trans hm)
        · omega
        · left
          rw [Edit.Before, ha.cuts.stop]
          omega

/-- First the name, then the namespace in front of it. -/
theorem settled_of_before (hsegments : ∀ t ∈ seg :: segments, isIdentifier t = true)
    (hspace : space = "\\".intercalate (seg :: segments)) (hplain : HasPlainHeader s space) (hunsettled : ¬ SpaceSettled s space)
    (hab : Edit.Before a b) (h₁ : b.Turns s s₁) (h : a.Turns s₁ s') : SpaceSettled s' space ∧ NameSettled s' name := by
  obtain ⟨hsettled, as, bs, bs', t, t', hr⟩ := hb.settles s₁ h₁
  have hle : ∀ c ∈ (parse s).clause?, c.headerStop ≤ width front' := by
    intro c hc
    rw [ha.headerStop c hc, ← hb.cuts.offset]
    exact Int.ofNat_le.mpr hab
  obtain ⟨a', front₁, old₁, back₁, ha'⟩ := exists_settlesSpace hr.exists_code hsegments hspace (hr.hasPlainHeader hle hplain)
    (mt hr.spaceSettled_iff.mp hunsettled)
  obtain rfl : a = a' := by
    have hedit := ha'.edit
    rw [hr.spaceEdit_eq hle, ha.edit] at hedit
    exact Option.some.inj (Except.ok.inj hedit)
  obtain ⟨hspaced, hdeclared⟩ := ha'.settles s' h
  exact ⟨hspaced, hsettled.of_redeclares hdeclared⟩

/-- First the namespace, then the name in front of it. -/
theorem settled_of_after (hname : isIdentifier name = true) (hloose : LooseName s name) (hunsettled : ¬ NameSettled s name)
    (hba : Edit.Before b a) (h₁ : a.Turns s s₁) (h : b.Turns s₁ s') : SpaceSettled s' space ∧ NameSettled s' name := by
  obtain ⟨hspaced, hdeclared⟩ := ha.settles s₁ h₁
  have hlt : b.offset < width front := hb.offset_lt_stop.trans_le (hba.trans_eq ha.cuts.offset)
  have hrel := rel_declaration_of_redeclares hdeclared hb.declared hlt
  have hunsettled₁ : ¬ NameSettled s₁ name := by
    rw [NameSettled] at hunsettled ⊢
    generalize (parse s).declaration? = x at hrel hunsettled
    generalize (parse s₁).declaration? = y at hrel ⊢
    cases hrel with
    | none => exact hunsettled
    | some heq => simpa [heq] using hunsettled
  have hloose₁ := LooseName.of_redeclares ha.cuts.text (h₁.toList_eq ha.cuts) hdeclared hb.declared hlt hloose
  obtain ⟨b', front₁, old₁, back₁, hb'⟩ := exists_settlesName hname hloose₁ hunsettled₁
  obtain rfl : b = b' := by
    have hedit := hb'.edit
    rw [nameEdit_congr hrel, hb.edit] at hedit
    exact Option.some.inj (Except.ok.inj hedit)
  obtain ⟨hnamed, as, bs, bs', t, t', hr⟩ := hb'.settles s' h
  exact ⟨hr.spaceSettled_iff.mpr hspaced, hnamed⟩

end

/-- The edits of a text can be computed and made, and afterwards namespace and name are settled. -/
theorem exists_settled (hcode : ∃ t ∈ tokens s, t.lexeme ≠ .text) (hsegments : ∀ t ∈ segments, isIdentifier t = true)
    (hspace : space = "\\".intercalate segments) (hname : isIdentifier name = true) (hplain : HasPlainHeader s space)
    (hloose : LooseName s name) :
    ∃ a b s', spaceEdit (parse s) space = .ok a ∧ nameEdit (parse s) name = .ok b ∧
      Edit.applyAll (a.toList ++ b.toList) s = .ok s' ∧ SpaceSettled s' space ∧ NameSettled s' name := by
  by_cases hs : SpaceSettled s space
  · have ha : spaceEdit (parse s) space = .ok none := by
      rw [spaceEdit, hs.fixSpace_eq]
      rfl
    by_cases hn : NameSettled s name
    · have hb : nameEdit (parse s) name = .ok none := by
        rw [nameEdit, hn.fixName_eq]
        rfl
      exact ⟨none, none, s, ha, hb, Edit.applyAll_nil s, hs, hn⟩
    · obtain ⟨b, front, old, back, hb⟩ := exists_settlesName hname hloose hn
      obtain ⟨s', happly⟩ : ∃ s', Edit.applyAll [b] s = .ok s' :=
        Edit.exists_applyAll (by simpa using ⟨front, old, back, hb.cuts⟩) (by simp [Edit.sorted])
      obtain ⟨hnamed, as, bs, bs', t, t', hr⟩ := hb.settles s' (Edit.turns_of_applyAll hb.cuts happly)
      exact ⟨none, some b, s', ha, hb.edit, happly, hr.spaceSettled_iff.mpr hs, hnamed⟩
  · have hne : segments ≠ [] := by
      rintro rfl
      exact hs (.inl hspace)
    obtain ⟨seg, segments, rfl⟩ := List.exists_cons_of_ne_nil hne
    obtain ⟨a, front, old, back, ha⟩ := exists_settlesSpace hcode hsegments hspace hplain hs
    by_cases hn : NameSettled s name
    · have hb : nameEdit (parse s) name = .ok none := by
        rw [nameEdit, hn.fixName_eq]
        rfl
      obtain ⟨s', happly⟩ : ∃ s', Edit.applyAll [a] s = .ok s' :=
        Edit.exists_applyAll (by simpa using ⟨front, old, back, ha.cuts⟩) (by simp [Edit.sorted])
      obtain ⟨hspaced, hdeclared⟩ := ha.settles s' (Edit.turns_of_applyAll ha.cuts happly)
      exact ⟨some a, none, s', ha.edit, hb, happly, hspaced, hn.of_redeclares hdeclared⟩
    · obtain ⟨b, front', old', back', hb⟩ := exists_settlesName hname hloose hn
      obtain ⟨s', happly⟩ : ∃ s', Edit.applyAll [a, b] s = .ok s' := by
        refine Edit.exists_applyAll (by simpa using ⟨⟨front, old, back, ha.cuts⟩, front', old', back', hb.cuts⟩) ?_
        refine Edit.sorted_append_before (a := some a) (b := some b) ?_ ?_
        · rintro _ ⟨⟩
          exact hb.offset_lt_stop
        · rintro _ ⟨⟩ _ ⟨⟩
          exact ha.apart hb
      refine ⟨some a, some b, s', ha.edit, hb.edit, happly, ?_⟩
      obtain ⟨hab, s₁, h₁, h⟩ | ⟨hba, s₁, h₁, h⟩ := Edit.exists_turns_of_applyAll ha.cuts hb.cuts happly
      · exact settled_of_before ha hb hsegments hspace hplain hs hab h₁ h
      · exact settled_of_after ha hb hname hloose hn hba h₁ h

end Php

namespace Reconciler

variable {best : Vantage → String → Except Failure (Except NoCandidate ClassName)}
variable {v : Vantage} {u : SourceUnit} {path : String} {c : ClassName}

theorem of_settled (hpath : filePath u = .ok path) (hbest : best v path = .ok (.ok c)) (hspace : Php.SpaceSettled u.text c.space)
    (hname : Php.NameSettled u.text c.name) :
    let r : Reconciler := ⟨best, Php.parse⟩
    r.reconcile v u = .ok [] ∧ r.inspect v u = .ok ([], []) := by
  intro r
  have hcompute : r.compute v u = .ok (.ok ⟨c, none, none⟩) := by
    unfold compute
    rw [hpath]
    dsimp only
    rw [show r.best v path = .ok (.ok c) from hbest]
    dsimp only
    rw [Corrections.ofTree, hspace.fixSpace_eq]
    dsimp only
    rw [hname.fixName_eq]
    rfl
  rw [reconcile, inspect, hcompute]
  exact ⟨rfl, rfl⟩

/-- No condition on the header can be left out. Behind a string in it, behind brackets in front of the body, and in code that
is put into a string, a new name shows a type that was hidden, or hides the clause itself. -/
example :
    let edits (s : String) := (Corrections.ofTree (Php.parse s) ⟨"Acme", "Q"⟩).map Corrections.edits
    (edits "<?php namespace A \"class X \x7b\x7d\"?>" = .ok [⟨6, 13, "namespace Acme;"⟩] ∧
        edits "<?php namespace Acme;class X \x7b\x7d\"?>" = .ok [⟨27, 1, "Q"⟩]) ∧
      (edits "<?php namespace ((\x7b\x7d new )) class X \x7b\x7d" = .ok [⟨6, 9, "namespace Acme"⟩] ∧
        edits "<?php namespace Acme ((\x7b\x7d new )) class X \x7b\x7d" = .ok [⟨39, 1, "Q"⟩]) ∧
      (edits "<?php \"if #\x7b$\x7bnamespace if #\x7b;\x7d\";" = .ok [⟨14, 19, "namespace Acme;"⟩] ∧
        edits "<?php \"if #\x7b$\x7bnamespace Acme;" = .ok [⟨5, 0, "\nnamespace Acme;\n"⟩]) := by
  decide +kernel

end Reconciler

end Namesake
