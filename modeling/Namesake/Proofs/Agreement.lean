import Namesake.Php
import Namesake.Proofs.Patch
import Namesake.Reconciler

/-! Findings and edits are two views of one decision. Every edit that a source needs has its finding, in the
same order: the finding names what the edit writes and covers the octets it changes, because the header of a
clause and the name of a type lie in the nodes that the findings are about. Where no class name can be told,
the edits are refused and there are no findings; whatever else goes wrong goes wrong for both. -/

namespace Namesake

open Text Syntax

theorem Span.check_natCast {start stop : Nat} (h : start ≤ stop) :
    Span.check start stop = .ok ⟨start, stop, h⟩ := by
  have hstart : Field.natural start = .ok start := Field.natural_eq_ok.mpr rfl
  have hstop : Field.natural stop = .ok stop := Field.natural_eq_ok.mpr rfl
  rw [check, hstart, hstop]
  show ofNats start stop = _
  rw [ofNats, dif_pos h]

/-- The finding is about what the edit changes, in a text with the tree `t` that is to declare the class `c`. -/
inductive Describes (t : Tree) (c : ClassName) (d : Diagnostic) (e : Edit) : Prop
  /-- There is no clause yet: one is put in, and the finding points at the start of the text. -/
  | insertion (hclause : t.clause? = none)
      (hmessage : d.message = "Namespace should probably be \"" ++ c.space ++ "\"")
      (hrange : d.range.start = 0 ∧ d.range.stop = 0) (hlength : e.length = 0)
      (htext : e.replacement = Corrections.insertion c.space e.offset)
  /-- The header of the first clause is rewritten, and the finding points at the clause. -/
  | header {clause : Clause} (hclause : t.clause? = some clause)
      (hmessage : d.message = "Namespace should probably be \"" ++ c.space ++ "\"")
      (hrange : (d.range.start : Int) = clause.start ∧ (d.range.stop : Int) = clause.stop)
      (hinside : d.range.start ≤ e.offset ∧ e.stop ≤ d.range.stop)
      (htext : e.replacement = "namespace " ++ c.space ++ if clause.braced then "" else ";")
  /-- The name of the first type is rewritten, and the finding points at its declaration. -/
  | name {declaration : Declaration} (hdeclaration : t.declaration? = some declaration)
      (hmessage : d.message = "Class name should probably be \"" ++ c.name ++ "\"")
      (hrange : (d.range.start : Int) = declaration.start ∧ (d.range.stop : Int) = declaration.stop)
      (hinside : d.range.start ≤ e.offset ∧ e.stop ≤ d.range.stop)
      (htext : e.replacement = c.name)

namespace Corrections

variable {t : Tree} {cs : List Char}

/-- A correction of the namespace has a finding that describes its edit. -/
theorem fixSpace_describes (ht : t.WellFormed cs) {c : ClassName} {x : SpaceCorrection}
    (h : fixSpace t c.space = .ok (some x)) : ∃ d, x.diagnostic = .ok d ∧ Describes t c d x.edit := by
  unfold fixSpace at h
  by_cases hspace : c.space = ""
  · rw [if_pos hspace] at h
    cases h
  rw [if_neg hspace] at h
  cases hclause : t.clause? with
  | none =>
      rw [hclause] at h
      cases h
      have hzero : Span.check 0 0 = .ok ⟨0, 0, Nat.le_refl 0⟩ := Span.check_natCast (Nat.le_refl 0)
      refine ⟨⟨⟨0, 0, Nat.le_refl 0⟩, _, .warning⟩, ?_, .insertion hclause rfl ⟨rfl, rfl⟩ rfl rfl⟩
      simp only [SpaceCorrection.diagnostic, hzero]
      rfl
  | some clause =>
      rw [hclause] at h
      dsimp only at h
      by_cases hsame : clause.name = some c.space
      · rw [if_pos hsame] at h
        cases h
      rw [if_neg hsame] at h
      obtain ⟨n, hfirst, rfl⟩ := Option.map_eq_some_iff.mp hclause
      obtain ⟨hn, hkind⟩ := Node.mem_of_first? hfirst
      rw [List.mem_singleton] at hkind
      obtain ⟨⟨hlow, hhigh⟩, -, -⟩ := Node.headerStop_placed
        (fun y hy => ht.placed y (Node.mem_preorder_trans hy hn)) hkind
      dsimp only at h
      rw [← Nat.cast_sub hlow, Edit.check_natCast] at h
      cases h
      refine ⟨⟨⟨n.start, n.stop, (ht.placed n hn).ordered⟩, _, .warning⟩, ?_,
        .header hclause rfl ⟨rfl, rfl⟩ ⟨Nat.le_refl _, ?_⟩ ?_⟩
      · show (Span.check n.start n.stop).map _ = _
        rw [Span.check_natCast (ht.placed n hn).ordered]
        rfl
      · show n.start + (Tree.headerStop n - n.start) ≤ n.stop
        rwa [Nat.add_sub_cancel' hlow]
      · show replacement c.space _ = _
        rw [replacement, statement]
        dsimp only
        cases (n.child? "body").isSome <;> simp

/-- A correction of a type name has a finding that describes its edit. -/
theorem fixName_describes (ht : t.WellFormed cs) {c : ClassName} {x : NameCorrection}
    (h : fixName t c.name = .ok (some x)) : ∃ d, x.diagnostic = .ok d ∧ Describes t c d x.edit := by
  unfold fixName at h
  cases hdeclaration : t.declaration? with
  | none =>
      rw [hdeclaration] at h
      cases h
  | some declaration =>
      rw [hdeclaration] at h
      dsimp only at h
      cases hname : declaration.name with
      | none =>
          rw [hname] at h
          cases h
      | some old =>
          rw [hname] at h
          dsimp only at h
          by_cases hsame : old.text = c.name
          · rw [if_pos hsame] at h
            cases h
          rw [if_neg hsame] at h
          obtain ⟨n, hfirst, hdeclared⟩ := Option.bind_eq_some_iff.mp hdeclaration
          obtain ⟨kind, -, rfl⟩ := Option.map_eq_some_iff.mp hdeclared
          obtain ⟨m, hm, rfl⟩ := Option.map_eq_some_iff.mp hname
          obtain ⟨hn, -⟩ := Node.mem_of_first? hfirst
          have hmroot : m ∈ t.root.preorder := Node.mem_preorder_trans (Node.mem_preorder_of_child? hm) hn
          have hinside := (ht.placed n hn).inside m (Node.mem_of_child? hm).1
          dsimp only at h
          rw [Edit.check_natCast, ← Utf8.length_encode, ht.encode_textOf hmroot, ht.length_octetsOf hmroot] at h
          cases h
          refine ⟨⟨⟨n.start, n.stop, (ht.placed n hn).ordered⟩, _, .warning⟩, ?_,
            .name hdeclaration rfl ⟨rfl, rfl⟩ ⟨hinside.1, ?_⟩ rfl⟩
          · show (Span.check n.start n.stop).map _ = _
            rw [Span.check_natCast (ht.placed n hn).ordered]
            rfl
          · show m.start + (m.stop - m.start) ≤ n.stop
            rw [Nat.add_sub_cancel' (ht.placed m hmroot).ordered]
            exact hinside.2

theorem mapM_describes {α : Type} {o : Option α} {finding : α → Field.Checked Diagnostic} {edit : α → Edit}
    {c : ClassName} (h : ∀ x ∈ o, ∃ d, finding x = .ok d ∧ Describes t c d (edit x)) :
    ∃ ds, o.toList.mapM finding = .ok ds ∧ List.Forall₂ (Describes t c) ds (o.map edit).toList := by
  cases o with
  | none => exact ⟨[], rfl, .nil⟩
  | some x =>
      obtain ⟨d, hd, hdescribes⟩ := h x rfl
      refine ⟨[d], ?_, .cons hdescribes .nil⟩
      rw [Option.toList_some, List.mapM_cons, hd]
      rfl

/-- What has to change can always be told, and so can the findings, one for each edit and in their order. -/
theorem exists_diagnostics (ht : t.WellFormed cs) (c : ClassName) :
    ∃ k ds, ofTree t c = .ok k ∧ k.diagnostics = .ok ds ∧ List.Forall₂ (Describes t c) ds k.edits := by
  obtain ⟨space, hspace, -⟩ := fixSpace_eq ht c.space
  obtain ⟨name, hname, -⟩ := fixName_eq ht c.name
  obtain ⟨front, hfront, hspaces⟩ := mapM_describes fun x hx =>
    fixSpace_describes ht (hspace.trans (congrArg Except.ok hx))
  obtain ⟨back, hback, hnames⟩ := mapM_describes fun x hx =>
    fixName_describes ht (hname.trans (congrArg Except.ok hx))
  refine ⟨⟨c, space, name⟩, front ++ back, ?_, ?_, List.rel_append hspaces hnames⟩
  · rw [ofTree, hspace, hname]
    rfl
  · rw [diagnostics, hfront, hback]
    rfl

end Corrections

/-- Whatever keeps the name of a path from being looked up, it is not that a source has no name. -/
theorem Resolver.best_ne_unresolved (r : Resolver) (v : Vantage) (path : String) (why : Unresolved) :
    r.best v path ≠ .error (.unresolved why) := by
  intro h
  cases r with
  | table rows => cases h
  | autoload root rules =>
      rw [best, candidates] at h
      have hresolve : v.resolve (root.join (Path.ofString path)) = .error (.unresolved why) := by
        cases hres : v.resolve (root.join (Path.ofString path)) with
        | ok q =>
            rw [hres] at h
            cases h
        | error e =>
            rw [hres] at h
            cases h
            rfl
      unfold Vantage.resolve at hresolve
      split_ifs at hresolve with hnul
      · cases hresolve
      · split at hresolve <;> cases hresolve

namespace Reconciler

/-- For every source, resolver and well-formed tree: where no class name can be told the edits are refused and
there are no findings; any other failure is a failure of both; otherwise the findings describe the edits one by
one, in their order, so there is nothing to report exactly when there is nothing to change. -/
theorem inspect_describes_reconcile (resolver : Resolver) (parse : String → Tree) (v : Vantage) (u : SourceUnit)
    (ht : (parse u.text).WellFormed u.text.toList) :
    let r := ofResolver resolver parse
    (∀ why, r.reconcile v u = .error (.unresolved why) → r.inspect v u = .ok ([], [silence u why])) ∧
    (∀ e, (∀ why, e ≠ .unresolved why) → (r.reconcile v u = .error e ↔ r.inspect v u = .error e)) ∧
    (∀ why, r.inspect v u ≠ .error (.unresolved why)) ∧
    ∀ edits, r.reconcile v u = .ok edits → ∃ path c ds, filePath u = .ok path ∧
      resolver.best v path = .ok (.ok c) ∧ r.inspect v u = .ok (ds, []) ∧
      List.Forall₂ (Describes (parse u.text) c) ds edits ∧ (ds = [] ↔ edits = []) := by
  intro r
  cases hpath : filePath u with
  | error why =>
      have hcompute : r.compute v u = .ok (.error why) := by rw [compute, hpath]
      rw [reconcile, inspect, hcompute]
      refine ⟨?_, ?_, nofun, nofun⟩
      · rintro _ ⟨⟩
        rfl
      · intro e he
        exact iff_of_false (fun h => he why (Except.error.inj h).symm) nofun
  | ok path =>
      have hbest : r.best v path = resolver.best v path := rfl
      cases hname : resolver.best v path with
      | error e =>
          have hcompute : r.compute v u = .error e := by simp only [compute, hpath, hbest, hname]
          have hresolved (why : Unresolved) : e ≠ .unresolved why := by
            rintro rfl
            exact resolver.best_ne_unresolved v path why hname
          rw [reconcile, inspect, hcompute]
          refine ⟨?_, ?_, ?_, nofun⟩
          · intro why h
            exact absurd (Except.error.inj h) (hresolved why)
          · intro e' he'
            rw [Except.error.injEq, Except.error.injEq]
          · intro why h
            exact hresolved why (Except.error.inj h)
      | ok found =>
          cases found with
          | error cause =>
              have hcompute : r.compute v u = .ok (.error (.noName path cause)) := by
                simp only [compute, hpath, hbest, hname]
              rw [reconcile, inspect, hcompute]
              refine ⟨?_, ?_, nofun, nofun⟩
              · rintro _ ⟨⟩
                rfl
              · intro e he
                exact iff_of_false (fun h => he _ (Except.error.inj h).symm) nofun
          | ok c =>
              obtain ⟨k, ds, hk, hds, hdescribes⟩ := Corrections.exists_diagnostics ht c
              have hparse : r.parse u.text = parse u.text := rfl
              have hcompute : r.compute v u = .ok (.ok k) := by
                simp only [compute, hpath, hbest, hname, hparse, hk]
              rw [reconcile, inspect, hcompute]
              dsimp only
              rw [hds]
              refine ⟨nofun, fun e _ => iff_of_false nofun nofun, nofun, ?_⟩
              rintro edits ⟨⟩
              refine ⟨path, c, ds, rfl, hname, rfl, hdescribes, ?_⟩
              rw [← List.length_eq_zero_iff, ← List.length_eq_zero_iff, hdescribes.length_eq]

/-- A class nested in the body of its namespace, both with other names than the table says. -/
theorem inspect_describes_reconcile_nested :
    let text := "<?php namespace A \x7b class B \x7b\x7d \x7d"
    let resolver := Resolver.table [("/x/D.php", ⟨"C", "D"⟩)]
    let u : SourceUnit := ⟨text, some (Location.ofFile "/x/D.php"), Language.php.name⟩
    let v : Vantage := ⟨.empty, []⟩
    let r := ofResolver resolver Php.parse
    (Php.parse u.text).WellFormed u.text.toList ∧ (r.reconcile v u).toOption.map List.length = some 2 ∧
    (∀ why, r.reconcile v u = .error (.unresolved why) → r.inspect v u = .ok ([], [silence u why])) ∧
    (∀ e, (∀ why, e ≠ .unresolved why) → (r.reconcile v u = .error e ↔ r.inspect v u = .error e)) ∧
    (∀ why, r.inspect v u ≠ .error (.unresolved why)) ∧
    ∀ edits, r.reconcile v u = .ok edits → ∃ path c ds, filePath u = .ok path ∧
      resolver.best v path = .ok (.ok c) ∧ r.inspect v u = .ok (ds, []) ∧
      List.Forall₂ (Describes (Php.parse u.text) c) ds edits ∧ (ds = [] ↔ edits = []) := by
  intro text resolver u v r
  have ht : (Php.parse u.text).WellFormed u.text.toList := by decide +kernel
  exact ⟨ht, by decide +kernel, inspect_describes_reconcile resolver Php.parse v u ht⟩

end Reconciler

end Namesake
