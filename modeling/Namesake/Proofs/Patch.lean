import Namesake.Correction
import Namesake.Proofs.Layout
import Namesake.Proofs.Splice

/-! What the corrections do to a text. `headerPiece?` and `namePiece?` say which octets of a text give way
and to what, read off the nodes of its tree; on a well-formed tree the corrections can always be computed
and applied, and the patched text is the old one with these pieces put in at once, wherever the clause and
the type stand seen from each other. -/

namespace Namesake

open Text

namespace Syntax.Tree

def octetsOf (t : Tree) (n : Node) : Octets :=
  (t.source.take n.stop).drop n.start

/-- The piece of a text that gives way to a namespace: the header of the first clause unless its name has
the octets of the namespace already, or nothing at the end of the text before the code. -/
def headerPiece? (t : Tree) (space : String) : Option Edit :=
  if space = "" then none
  else
    match t.root.first? [clauseKind] with
    | none =>
      let offset := t.leading?.getD 0
      some ⟨offset, 0, Corrections.insertion space offset⟩
    | some n =>
      if (n.child? "name").map t.octetsOf = some (Utf8.encode space) then none
      else
        let closing := if (n.child? "body").isSome then "" else ";"
        some ⟨n.start, headerStop n - n.start, "namespace " ++ space ++ closing⟩

/-- The piece of a text that gives way to a name: the name of the first type unless it has the octets of
the name already. -/
def namePiece? (t : Tree) (name : String) : Option Edit :=
  match (t.root.first? typeKinds).bind (Node.child? · "name") with
  | none => none
  | some m => if t.octetsOf m = Utf8.encode name then none else some ⟨m.start, m.stop - m.start, name⟩

namespace WellFormed

variable {t : Tree} {cs : List Char}

/-- The text of a node has its octets. -/
theorem encode_textOf (ht : t.WellFormed cs) {n : Node} (hn : n ∈ t.root.preorder) :
    Utf8.encode (t.textOf n) = t.octetsOf n := by
  obtain ⟨hstart, hstop⟩ := (ht.placed n hn).borders
  obtain ⟨mid, hmid⟩ := hstart.exists_slice hstop
  calc Utf8.encode (t.textOf n) = Utf8.encode (Utf8.decodeLossy (Utf8.encodeChars mid)) := by
        rw [textOf, slice, ht.source, hmid]
    _ = Utf8.encodeChars mid := by rw [Utf8.decodeLossy_encodeChars, Utf8.encode_ofList]
    _ = t.octetsOf n := by rw [octetsOf, ht.source, hmid]

theorem textOf_eq_iff (ht : t.WellFormed cs) {n : Node} (hn : n ∈ t.root.preorder) (s : String) :
    t.textOf n = s ↔ t.octetsOf n = Utf8.encode s := by
  rw [← ht.encode_textOf hn]
  exact Utf8.encode_injective.eq_iff.symm

theorem stop_le_length (ht : t.WellFormed cs) {n : Node} (hn : n ∈ t.root.preorder) :
    n.stop ≤ t.source.length :=
  (Node.start_le_of_mem_preorder ht.placed hn).2.trans ht.within

theorem length_octetsOf (ht : t.WellFormed cs) {n : Node} (hn : n ∈ t.root.preorder) :
    (t.octetsOf n).length = n.stop - n.start := by
  rw [octetsOf, List.length_drop, List.length_take, Nat.min_eq_left (ht.stop_le_length hn)]

end WellFormed

end Syntax.Tree

theorem Edit.check_natCast (offset length : Nat) (replacement : String) :
    Edit.check offset length replacement = .ok ⟨offset, length, replacement⟩ := by
  have hoffset : Field.natural offset = .ok offset := Field.natural_eq_ok.mpr rfl
  have hlength : Field.natural length = .ok length := Field.natural_eq_ok.mpr rfl
  rw [Edit.check, hoffset, hlength]
  rfl

namespace Corrections

open Syntax

variable {t : Tree} {cs : List Char}

/-- The correction of the namespace can be computed, and its edit is the piece of the header. -/
theorem fixSpace_eq (ht : t.WellFormed cs) (space : String) :
    ∃ k, fixSpace t space = .ok k ∧ k.map (·.edit) = t.headerPiece? space := by
  unfold fixSpace Tree.headerPiece? Tree.clause?
  by_cases hspace : space = ""
  · rw [if_pos hspace, if_pos hspace]
    exact ⟨none, rfl, rfl⟩
  rw [if_neg hspace, if_neg hspace]
  cases hfirst : t.root.first? [Tree.clauseKind] with
  | none => exact ⟨_, rfl, rfl⟩
  | some n =>
      obtain ⟨hn, hkind⟩ := Node.mem_of_first? hfirst
      rw [List.mem_singleton] at hkind
      have hname : (n.child? "name").map t.textOf = some space ↔
          (n.child? "name").map t.octetsOf = some (Utf8.encode space) := by
        cases hchild : n.child? "name" with
        | none => exact iff_of_false (fun h => nomatch h) (fun h => nomatch h)
        | some m =>
            have hm : m ∈ t.root.preorder := Node.mem_preorder_trans (Node.mem_preorder_of_child? hchild) hn
            simp only [Option.map_some, Option.some.injEq]
            exact ht.textOf_eq_iff hm space
      simp only [Option.map_some]
      by_cases hsame : (n.child? "name").map t.textOf = some space
      · rw [if_pos hsame, if_pos (hname.mp hsame)]
        exact ⟨none, rfl, rfl⟩
      · rw [if_neg hsame, if_neg (mt hname.mpr hsame)]
        have hplaced : ∀ x ∈ n.preorder, x.WellPlaced cs :=
          fun x hx => ht.placed x (Node.mem_preorder_trans hx hn)
        have hle : n.start ≤ Tree.headerStop n := (Node.headerStop_placed hplaced hkind).1.1
        rw [← Nat.cast_sub hle, Edit.check_natCast]
        refine ⟨_, rfl, ?_⟩
        simp only [Option.map_some, replacement, statement]
        cases (n.child? "body").isSome <;> simp

/-- The correction of the name can be computed, and its edit is the piece of the name. -/
theorem fixName_eq (ht : t.WellFormed cs) (name : String) :
    ∃ k, fixName t name = .ok k ∧ k.map (·.edit) = t.namePiece? name := by
  unfold fixName Tree.namePiece? Tree.declaration?
  rw [typeKinds]
  cases hfirst : t.root.first? (TypeKind.all.map TypeKind.nodeKind) with
  | none => exact ⟨none, rfl, rfl⟩
  | some d =>
      obtain ⟨hd, hkind⟩ := Node.mem_of_first? hfirst
      obtain ⟨k, hk⟩ : ∃ k, TypeKind.ofNodeKind? d.kind = some k := by
        obtain ⟨k, hall, heq⟩ := List.mem_map.mp hkind
        rw [TypeKind.ofNodeKind?, ← Option.isSome_iff_exists, List.find?_isSome]
        exact ⟨k, hall, decide_eq_true heq⟩
      simp only [Option.bind_some, hk, Option.map_some]
      cases hchild : d.child? "name" with
      | none => exact ⟨none, rfl, rfl⟩
      | some m =>
          have hm : m ∈ t.root.preorder := Node.mem_preorder_trans (Node.mem_preorder_of_child? hchild) hd
          simp only [Option.map_some]
          by_cases hsame : t.textOf m = name
          · rw [if_pos hsame, if_pos ((ht.textOf_eq_iff hm name).mp hsame)]
            exact ⟨none, rfl, rfl⟩
          · rw [if_neg hsame, if_neg (mt (ht.textOf_eq_iff hm name).mpr hsame), Edit.check_natCast,
              ← Utf8.length_encode, ht.encode_textOf hm, ht.length_octetsOf hm]
            exact ⟨_, rfl, rfl⟩

end Corrections

/-! ### Where the pieces lie -/

namespace Syntax.Tree

variable {t : Tree} {cs : List Char} {a b : Edit}

theorem headerPiece?_eq_some {space : String} (h : t.headerPiece? space = some a) :
    (t.root.first? [clauseKind] = none ∧ a.offset = t.leading?.getD 0 ∧ a.length = 0) ∨
    ∃ n, t.root.first? [clauseKind] = some n ∧ a.offset = n.start ∧ a.length = headerStop n - n.start := by
  unfold headerPiece? at h
  by_cases hspace : space = ""
  · rw [if_pos hspace] at h
    cases h
  rw [if_neg hspace] at h
  cases hfirst : t.root.first? [clauseKind] with
  | none =>
      rw [hfirst] at h
      cases h
      exact .inl ⟨rfl, rfl, rfl⟩
  | some n =>
      rw [hfirst] at h
      dsimp only at h
      by_cases hsame : (n.child? "name").map t.octetsOf = some (Utf8.encode space)
      · rw [if_pos hsame] at h
        cases h
      · rw [if_neg hsame] at h
        cases h
        exact .inr ⟨n, rfl, rfl, rfl⟩

theorem namePiece?_eq_some {name : String} (h : t.namePiece? name = some b) :
    ∃ d m, t.root.first? typeKinds = some d ∧ d.child? "name" = some m ∧ b.offset = m.start ∧
      b.length = m.stop - m.start := by
  unfold namePiece? at h
  cases hbind : (t.root.first? typeKinds).bind (Node.child? · "name") with
  | none =>
      rw [hbind] at h
      cases h
  | some m =>
      obtain ⟨d, hd, hm⟩ := Option.bind_eq_some_iff.mp hbind
      rw [hbind] at h
      dsimp only at h
      by_cases hsame : t.octetsOf m = Utf8.encode name
      · rw [if_pos hsame] at h
        cases h
      · rw [if_neg hsame] at h
        cases h
        exact ⟨d, m, hd, hm, rfl, rfl⟩

namespace WellFormed

/-- The piece of the header begins and ends between characters. -/
theorem headerPiece?_borders (ht : t.WellFormed cs) {space : String} (h : t.headerPiece? space = some a) :
    Utf8.IsBorder cs a.offset ∧ Utf8.IsBorder cs a.stop := by
  rcases headerPiece?_eq_some h with ⟨-, hoffset, hlength⟩ | ⟨n, hfirst, hoffset, hlength⟩
  · rw [Edit.stop, hlength, hoffset, Nat.add_zero, and_self]
    cases he : t.leading? with
    | none => exact Utf8.isBorder_zero cs
    | some e => exact (ht.leading_le he).1
  · obtain ⟨hn, hkind⟩ := Node.mem_of_first? hfirst
    rw [List.mem_singleton] at hkind
    obtain ⟨⟨hle, -⟩, hborder, -⟩ := Node.headerStop_placed
      (fun x hx => ht.placed x (Node.mem_preorder_trans hx hn)) hkind
    rw [Edit.stop, hlength, hoffset, Nat.add_sub_cancel' hle]
    exact ⟨(ht.placed n hn).borders.1, hborder⟩

/-- The piece of the name begins and ends between characters and is not empty. -/
theorem namePiece?_borders (ht : t.WellFormed cs) {name : String} (h : t.namePiece? name = some b) :
    (Utf8.IsBorder cs b.offset ∧ Utf8.IsBorder cs b.stop) ∧ b.offset < b.stop := by
  obtain ⟨d, m, hfirst, hm, hoffset, hlength⟩ := namePiece?_eq_some h
  obtain ⟨hd, hkind⟩ := Node.mem_of_first? hfirst
  have hmroot : m ∈ t.root.preorder := Node.mem_preorder_trans (Node.mem_preorder_of_child? hm) hd
  have hlt := ((ht.placed d hd).nameLeaf hkind m hm).2
  rw [Edit.stop, hlength, hoffset, Nat.add_sub_cancel' hlt.le]
  exact ⟨(ht.placed m hmroot).borders, hlt⟩

/-- The two pieces lie apart. -/
theorem pieces_apart (ht : t.WellFormed cs) {space name : String} (ha : t.headerPiece? space = some a)
    (hb : t.namePiece? name = some b) : Edit.Before a b ∨ Edit.Before b a := by
  obtain ⟨d, m, hdfirst, hm, hboffset, hblength⟩ := namePiece?_eq_some hb
  obtain ⟨hd, hdkind⟩ := Node.mem_of_first? hdfirst
  have hin := (ht.placed d hd).inside m (Node.mem_of_child? hm).1
  have hmd := (ht.placed m (Node.mem_preorder_trans (Node.mem_preorder_of_child? hm) hd)).ordered
  rw [Edit.Before, Edit.Before, Edit.stop, Edit.stop, hboffset, hblength, Nat.add_sub_cancel' hmd]
  rcases headerPiece?_eq_some ha with ⟨-, haoffset, halength⟩ | ⟨n, hnfirst, haoffset, halength⟩
  · rw [haoffset, halength]
    cases he : t.leading? with
    | none => exact .inl (Nat.zero_le _)
    | some e => exact .inl (((ht.leading_le he).2 d hd hdkind).trans hin.1)
  · obtain ⟨hn, hnkind⟩ := Node.mem_of_first? hnfirst
    rw [List.mem_singleton] at hnkind
    obtain ⟨⟨hle, -⟩, -, -⟩ := Node.headerStop_placed
      (fun x hx => ht.placed x (Node.mem_preorder_trans hx hn)) hnkind
    rw [haoffset, halength, Nat.add_sub_cancel' hle]
    exact Node.name_clear_of_header ht.placed hn hnkind hd hdkind hm

end WellFormed

end Syntax.Tree

/-! ### The patched text -/

namespace Edit

open Text

/-- Edits between characters leave a text. -/
theorem exists_weave {cs : List Char} {es : List Edit} {pos : Nat} (hpos : Utf8.IsBorder cs pos)
    (hes : ∀ e ∈ es, Utf8.IsBorder cs e.offset ∧ Utf8.IsBorder cs e.stop) :
    ∃ out, weave (Utf8.encodeChars cs) pos es = Utf8.encodeChars out := by
  induction es generalizing pos with
  | nil => exact hpos.exists_drop
  | cons e es ih =>
      obtain ⟨hoffset, hstop⟩ := hes e List.mem_cons_self
      obtain ⟨front, hfront⟩ := hpos.exists_slice hoffset
      obtain ⟨back, hback⟩ := ih hstop fun e' he' => hes e' (List.mem_cons_of_mem _ he')
      refine ⟨front ++ e.replacement.toList ++ back, ?_⟩
      rw [weave, hfront, hback, Utf8.encode, Utf8.encodeChars_append, Utf8.encodeChars_append]

/-- Sorting puts two edits that lie apart the one before the other, the first one first where they touch. -/
theorem sorted_append_before {a b : Option Edit} (hb : ∀ y ∈ b, y.offset < y.stop)
    (h : ∀ x ∈ a, ∀ y ∈ b, Before x y ∨ Before y x) :
    (sorted (a.toList ++ b.toList)).Pairwise Before := by
  cases a with
  | none => cases b <;> simp [sorted]
  | some x =>
      cases b with
      | none => simp [sorted]
      | some y =>
          simp only [Option.toList_some, List.cons_append, List.nil_append]
          rcases h x rfl y rfl with hxy | hyx
          · rw [sorted_pair_of_le (x.offset_le_stop.trans hxy)]
            simpa using hxy
          · rw [sorted_pair_of_lt ((hb y rfl).trans_le hyx)]
            simpa using hyx

end Edit

namespace Corrections

open Syntax

theorem ofTree_edits {t : Tree} {cs : List Char} (ht : t.WellFormed cs) (c : ClassName) :
    ∃ k, ofTree t c = .ok k ∧
      k.edits = (t.headerPiece? c.space).toList ++ (t.namePiece? c.name).toList := by
  obtain ⟨space, hspace, hheader⟩ := fixSpace_eq ht c.space
  obtain ⟨name, hname, hnamed⟩ := fixName_eq ht c.name
  refine ⟨⟨c, space, name⟩, ?_, ?_⟩
  · rw [ofTree, hspace, hname]
    rfl
  · rw [edits, hheader, hnamed]

/-- The corrections can be computed, and their edits lie apart, inside the text and between its characters. -/
theorem exists_patch {t : Tree} {text : String} (ht : t.WellFormed text.toList) (c : ClassName) :
    ∃ k out, ofTree t c = .ok k ∧
      k.edits = (t.headerPiece? c.space).toList ++ (t.namePiece? c.name).toList ∧
      (Edit.sorted k.edits).Pairwise Edit.Before ∧
      (∀ e ∈ k.edits, e.stop ≤ (Utf8.encode text).length) ∧
      Edit.applyAll k.edits text = .ok out ∧
      Utf8.encode out = Edit.weave (Utf8.encode text) 0 (Edit.sorted k.edits) := by
  obtain ⟨k, hk, hedits⟩ := ofTree_edits ht c
  have hborders : ∀ e ∈ k.edits, Utf8.IsBorder text.toList e.offset ∧ Utf8.IsBorder text.toList e.stop := by
    intro e he
    rw [hedits, List.mem_append, Option.mem_toList, Option.mem_toList] at he
    rcases he with he | he
    · exact ht.headerPiece?_borders he
    · exact (ht.namePiece?_borders he).1
  have hapart : (Edit.sorted k.edits).Pairwise Edit.Before := by
    rw [hedits]
    exact Edit.sorted_append_before (fun y hy => (ht.namePiece?_borders hy).2)
      fun x hx y hy => ht.pieces_apart hx hy
  have hfit : ∀ e ∈ k.edits, e.stop ≤ (Utf8.encode text).length := fun e he => (hborders e he).2.le_length
  have happly := Edit.applyOctets_of_fits ((Edit.not_overlapping_iff _).mpr hapart) hfit
  obtain ⟨out, hout⟩ : ∃ out, Edit.weave (Utf8.encode text) 0 (Edit.sorted k.edits) = Utf8.encodeChars out :=
    Edit.exists_weave (Utf8.isBorder_zero text.toList) fun e he => hborders e (Edit.mem_sorted.mp he)
  rw [← Utf8.encode_ofList out] at hout
  refine ⟨k, String.ofList out, hk, hedits, hapart, hfit, ?_, hout.symm⟩
  rw [Edit.applyAll, happly, hout]
  simp only [Utf8.decode?_encode]

/-- For every text, class name and well-formed tree of the text the corrections can be computed and applied,
and the patched text is the old one in which the piece of the header and the piece of the name, and nothing
else, have given way. The pieces do not overlap, whichever of them comes first. -/
theorem patch_exact {t : Tree} {text : String} (ht : t.WellFormed text.toList) (c : ClassName) :
    ∃ k pieces out, ofTree t c = .ok k ∧
      k.edits = (t.headerPiece? c.space).toList ++ (t.namePiece? c.name).toList ∧
      pieces.Perm k.edits ∧ pieces.Pairwise Edit.Before ∧
      (∀ e ∈ pieces, e.stop ≤ (Utf8.encode text).length) ∧
      Edit.applyAll k.edits text = .ok out ∧
      Utf8.encode out = Edit.weave (Utf8.encode text) 0 pieces := by
  obtain ⟨k, out, hk, hedits, hapart, hfit, happly, hout⟩ := exists_patch ht c
  exact ⟨k, Edit.sorted k.edits, out, hk, hedits, Edit.sorted_perm _, hapart,
    fun e he => hfit e (Edit.mem_sorted.mp he), happly, hout⟩

/-- A class nested in the body of its namespace. -/
theorem patch_exact_nested :
    let text := "<?php namespace A \x7b class B \x7b\x7d \x7d"
    let t : Tree := ⟨Utf8.encode text, .mk "program" 0 32 none
      [.mk "php_tag" 0 6 none [],
       .mk "namespace_definition" 6 32 none
        [.mk "namespace" 6 15 none [],
         .mk "namespace_name" 16 17 (some "name") [.mk "name" 16 17 none []],
         .mk "compound_statement" 18 32 (some "body")
          [.mk "\x7b" 18 19 none [],
           .mk "class_declaration" 20 30 none
            [.mk "class" 20 25 none [], .mk "name" 26 27 (some "name") [],
             .mk "declaration_list" 28 30 (some "body") []],
           .mk "\x7d" 31 32 none []]]]⟩
    t.WellFormed text.toList ∧
    ∃ k pieces out, ofTree t ⟨"C", "D"⟩ = .ok k ∧
      k.edits = (t.headerPiece? "C").toList ++ (t.namePiece? "D").toList ∧
      pieces.Perm k.edits ∧ pieces.Pairwise Edit.Before ∧
      (∀ e ∈ pieces, e.stop ≤ (Utf8.encode text).length) ∧
      Edit.applyAll k.edits text = .ok out ∧
      Utf8.encode out = Edit.weave (Utf8.encode text) 0 pieces := by
  intro text t
  have ht : t.WellFormed text.toList := by decide +kernel
  exact ⟨ht, patch_exact ht ⟨"C", "D"⟩⟩

end Corrections

end Namesake
