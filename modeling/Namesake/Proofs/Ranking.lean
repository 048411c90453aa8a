import Namesake.Proofs.Listing
import Namesake.Resolver

/-! Which names rules derive for a place, and in which order. A rule derives a name for the places below its
directory. Of two rules the one with the deeper directory goes first, of equally deep ones the one that was
declared earlier; so the rules stand in a strict order, and a name stands where the best rule that derives it
stands. -/

namespace Namesake

/-! ### The first elements that give a value -/

/-- Of the elements of a list from which `f` gets the value `x`, the first one in the order `R`. -/
structure IsFirst {α β : Type} (R : α → α → Prop) (l : List α) (f : α → Option β) (x : β) (a : α) : Prop where
  mem : a ∈ l
  gives : f a = some x
  first : ∀ b ∈ l, f b = some x → b = a ∨ R a b

namespace IsFirst

variable {α β : Type} {R : α → α → Prop} {l : List α} {f : α → Option β} {x : β} {a b : α}

theorem unique (hR : ∀ a b, R a b → ¬ R b a) (ha : IsFirst R l f x a) (hb : IsFirst R l f x b) : a = b := by
  rcases ha.first b hb.mem hb.gives with heq | hab
  · exact heq.symm
  · rcases hb.first a ha.mem ha.gives with heq | hba
    · exact heq
    · exact absurd hba (hR a b hab)

theorem exists_of_mem (hl : l.Pairwise R) (hx : x ∈ l.filterMap f) : ∃ a, IsFirst R l f x a := by
  induction l with
  | nil => cases hx
  | cons c l ih =>
      obtain ⟨hc, hl⟩ := List.pairwise_cons.mp hl
      by_cases hgives : f c = some x
      · refine ⟨c, List.mem_cons_self, hgives, fun b hb _ => ?_⟩
        exact (List.mem_cons.mp hb).imp id (hc b)
      · have hx' : x ∈ l.filterMap f := by
          obtain ⟨b, hb, hbx⟩ := List.mem_filterMap.mp hx
          rcases List.mem_cons.mp hb with rfl | hb
          · exact absurd hbx hgives
          · exact List.mem_filterMap.mpr ⟨b, hb, hbx⟩
        obtain ⟨a, ha⟩ := ih hl hx'
        refine ⟨a, List.mem_cons_of_mem _ ha.mem, ha.gives, fun b hb hbx => ?_⟩
        rcases List.mem_cons.mp hb with rfl | hb
        · exact absurd hbx hgives
        · exact ha.first b hb hbx

/-- What is first in a list is first in its tail, unless it is the head. -/
theorem tail {c : α} (h : IsFirst R (c :: l) f x a) (hne : f c ≠ some x) : IsFirst R l f x a := by
  refine ⟨?_, h.gives, fun b hb => h.first b (List.mem_cons_of_mem _ hb)⟩
  rcases List.mem_cons.mp h.mem with rfl | hmem
  · exact absurd h.gives hne
  · exact hmem

/-- Without the values that `keep` refuses, what is first for another value stays the first. -/
theorem filter (h : IsFirst R l f x a) {keep : β → Bool} (hx : keep x = true) :
    IsFirst R l (fun c => (f c).filter keep) x a := by
  refine ⟨h.mem, ?_, fun b hb hbx => h.first b hb ?_⟩
  · rw [h.gives, Option.filter_some_pos hx]
  · exact (Option.filter_eq_some_iff.mp hbx).1

end IsFirst

/-- Values without their repetitions stand in the order of the elements that give them first. -/
theorem pairwise_eraseDups_filterMap {α β : Type} [BEq β] [LawfulBEq β] {R : α → α → Prop}
    (hR : ∀ a b, R a b → ¬ R b a) {l : List α} (hl : l.Pairwise R) (f : α → Option β) :
    (l.filterMap f).eraseDups.Pairwise fun x y => ∀ a b, IsFirst R l f x a → IsFirst R l f y b → R a b := by
  induction l generalizing f with
  | nil => exact .nil
  | cons c l ih =>
      obtain ⟨hc, hl⟩ := List.pairwise_cons.mp hl
      cases hgives : f c with
      | none =>
          rw [List.filterMap_cons_none hgives]
          refine (ih hl f).imp fun hxy a b ha hb => hxy a b (ha.tail ?_) (hb.tail ?_)
          · rw [hgives]
            nofun
          · rw [hgives]
            nofun
      | some z =>
          rw [List.filterMap_cons_some hgives, List.eraseDups_cons, List.filter_filterMap]
          have hkept : ∀ x ∈ (l.filterMap fun a => (f a).filter fun b => !b == z).eraseDups, (!x == z) = true := by
            intro x hx
            obtain ⟨a, -, ha⟩ := List.mem_filterMap.mp (List.mem_eraseDups.mp hx)
            exact (Option.filter_eq_some_iff.mp ha).2
          have hne (x : β) (hx : (!x == z) = true) : f c ≠ some x := by
            rw [hgives]
            rintro ⟨⟩
            simp at hx
          refine List.pairwise_cons.mpr ⟨fun y hy a b ha hb => ?_, ?_⟩
          · obtain rfl : c = a := by
              rcases ha.first c List.mem_cons_self hgives with heq | hac
              · exact heq
              · rcases List.mem_cons.mp ha.mem with heq | hmem
                · exact heq.symm
                · exact absurd hac (hR c a (hc a hmem))
            exact hc b (hb.tail (hne y (hkept y hy))).mem
          · refine (ih hl _).imp_of_mem fun {x y} hx hy hxy a b ha hb => ?_
            have hx := hkept x hx
            have hy := hkept y hy
            exact hxy a b ((ha.tail (hne x hx)).filter hx) ((hb.tail (hne y hy)).filter hy)

/-! ### What a rule derives -/

/-- The rule says that a file at the place declares the class: the place lies below the directory, and the
namespace and the names on the way, the last one without its suffix, are read as the class. -/
def Rule.Derives (r : Rule) (p : Place) (c : ClassName) : Prop :=
  ∃ way last, p = r.directory ++ way ++ [last] ∧
    ClassName.parse ("\\".intercalate ((if r.space = "" then [] else [r.space]) ++ way ++ [(Path.ofPlace p).stem])) =
      .ok c

theorem Resolver.derive_eq_some_iff {space : String} {names : List String} {c : ClassName} :
    derive space names = some c ↔ ∃ way last, names = way ++ [last] ∧
      ClassName.parse ("\\".intercalate ((if space = "" then [] else [space]) ++ way ++
        [String.ofList (Path.cutSuffix last.toList).1])) = .ok c := by
  rcases List.eq_nil_or_concat names with rfl | ⟨way, last, rfl⟩
  · simp [derive]
  · rw [List.concat_eq_append, derive, List.getLast?_concat]
    dsimp only
    rw [List.dropLast_concat]
    constructor
    · intro h
      refine ⟨way, last, rfl, ?_⟩
      cases hparse : ClassName.parse ("\\".intercalate ((if space = "" then [] else [space]) ++ way ++
          [String.ofList (Path.cutSuffix last.toList).1])) with
      | error ps => rw [hparse] at h; cases h
      | ok c' => rw [hparse] at h; cases h; rfl
    · rintro ⟨way', last', heq, h⟩
      obtain ⟨rfl, hlast⟩ := List.append_inj' heq rfl
      obtain rfl := List.singleton_inj.mp hlast
      rw [h]
      rfl

theorem Resolver.Rule.apply_eq_some_iff {r : Rule} {p : Place} {c : ClassName} :
    Resolver.Rule.apply r p = some c ↔ r.Derives p c := by
  rw [Resolver.Rule.apply, Option.bind_eq_some_iff]
  constructor
  · rintro ⟨names, hdrop, hderive⟩
    obtain ⟨way, last, rfl, hparse⟩ := Resolver.derive_eq_some_iff.mp hderive
    obtain rfl := Path.dropFront?_eq_some.mp hdrop
    refine ⟨way, last, (List.append_assoc _ _ _).symm, ?_⟩
    rw [← List.append_assoc, Path.stem, Path.name, Path.ofPlace, List.getLast?_concat]
    exact hparse
  · rintro ⟨way, last, rfl, hparse⟩
    refine ⟨way ++ [last], Path.dropFront?_eq_some.mpr (List.append_assoc _ _ _), ?_⟩
    refine Resolver.derive_eq_some_iff.mpr ⟨way, last, rfl, ?_⟩
    rwa [Path.stem, Path.name, Path.ofPlace, List.getLast?_concat] at hparse

/-! ### The order of rules -/

/-- One rule goes before another one, each with the number under which it was declared: its directory is deeper,
or it is as deep and was declared earlier. -/
def Rule.Outranks (a b : Rule × Nat) : Prop :=
  b.1.directory.length < a.1.directory.length ∨ a.1.directory.length = b.1.directory.length ∧ a.2 < b.2

theorem Rule.Outranks.asymm {a b : Rule × Nat} (h : Outranks a b) : ¬ Outranks b a := by
  unfold Outranks at *
  omega

/-- Of the rules that derive the class for the place, the best one. -/
def Rule.IsBest (rules : List Rule) (p : Place) (c : ClassName) : Rule × Nat → Prop :=
  IsFirst Outranks rules.zipIdx (fun e => Resolver.Rule.apply e.1 p) c

namespace Resolver

/-- The rules with their numbers in the order of their ranks. -/
theorem exists_ranked (rules : List Rule) :
    ∃ l : List (Rule × Nat), l.Perm rules.zipIdx ∧ l.Pairwise Rule.Outranks ∧ ranked rules = l.map Prod.fst := by
  have htrans : ∀ a b c : Rule, decide (b.directory.length ≤ a.directory.length) = true →
      decide (c.directory.length ≤ b.directory.length) = true → decide (c.directory.length ≤ a.directory.length) = true := by
    intro a b c hab hbc
    rw [decide_eq_true_eq] at *
    exact hbc.trans hab
  have htotal : ∀ a b : Rule, (decide (b.directory.length ≤ a.directory.length) ||
      decide (a.directory.length ≤ b.directory.length)) = true := by
    intro a b
    simpa using Nat.le_total _ _
  refine ⟨rules.zipIdx.mergeSort (List.zipIdxLE fun a b => b.directory.length ≤ a.directory.length),
    List.mergeSort_perm _ _, ?_, List.mergeSort_zipIdx.symm⟩
  have hsorted := List.pairwise_mergeSort (List.zipIdxLE_trans htrans) (List.zipIdxLE_total htotal) rules.zipIdx
  have hnumbers : (rules.zipIdx.mergeSort (List.zipIdxLE fun a b => b.directory.length ≤ a.directory.length)).Pairwise
      fun a b => a.2 ≠ b.2 := by
    have hperm := (List.mergeSort_perm rules.zipIdx
      (List.zipIdxLE fun a b => b.directory.length ≤ a.directory.length)).map Prod.snd
    have hnodup : (rules.zipIdx.map Prod.snd).Nodup := by
      rw [List.zipIdx_map_snd]
      exact List.nodup_range'
    exact List.pairwise_map.mp (hperm.nodup_iff.mpr hnodup)
  refine (hsorted.and hnumbers).imp fun {a b} h => ?_
  obtain ⟨hle, hne⟩ := h
  simp only [List.zipIdxLE, decide_eq_true_eq] at hle
  unfold Rule.Outranks
  split_ifs at hle with hab hba
  · rw [decide_eq_true_eq] at hle
    omega
  · omega

/-- The names derived for a place are those that some rule derives, each once, and a name stands where the best
rule that derives it stands. -/
theorem derived_ranked (rules : List Rule) (p : Place) :
    (derived rules p).Nodup ∧ (∀ c, c ∈ derived rules p ↔ ∃ r ∈ rules, r.Derives p c) ∧
      (∀ c ∈ derived rules p, ∃! a, Rule.IsBest rules p c a) ∧
      (derived rules p).Pairwise fun x y => ∀ a b, Rule.IsBest rules p x a → Rule.IsBest rules p y b →
        Rule.Outranks a b := by
  obtain ⟨l, hperm, hl, hranked⟩ := exists_ranked rules
  have hderived : derived rules p = (l.filterMap fun e => Rule.apply e.1 p).eraseDups := by
    rw [derived, hranked, List.filterMap_map]
    rfl
  have hbest (c : ClassName) (a : Rule × Nat) :
      IsFirst Rule.Outranks l (fun e => Rule.apply e.1 p) c a ↔ Rule.IsBest rules p c a := by
    constructor
    · exact fun h => ⟨hperm.mem_iff.mp h.mem, h.gives, fun b hb => h.first b (hperm.mem_iff.mpr hb)⟩
    · exact fun h => ⟨hperm.mem_iff.mpr h.mem, h.gives, fun b hb => h.first b (hperm.mem_iff.mp hb)⟩
  have hasymm : ∀ a b, Rule.Outranks a b → ¬ Rule.Outranks b a := fun a b h => h.asymm
  have hexists : ∀ c ∈ derived rules p, ∃ a, Rule.IsBest rules p c a := by
    intro c hc
    rw [hderived, List.mem_eraseDups] at hc
    obtain ⟨a, ha⟩ := IsFirst.exists_of_mem hl hc
    exact ⟨a, (hbest c a).mp ha⟩
  have hpair : (derived rules p).Pairwise fun x y => ∀ a b, Rule.IsBest rules p x a → Rule.IsBest rules p y b →
      Rule.Outranks a b := by
    rw [hderived]
    refine (pairwise_eraseDups_filterMap hasymm hl _).imp fun {x y} h a b ha hb => ?_
    exact h a b ((hbest x a).mpr ha) ((hbest y b).mpr hb)
  refine ⟨?_, fun c => ?_, fun c hc => ?_, hpair⟩
  · refine hpair.imp_of_mem fun {x y} hx _ h heq => ?_
    obtain ⟨a, ha⟩ := hexists x hx
    have hself := h a a ha (heq ▸ ha)
    exact hself.asymm hself
  · rw [derived, List.mem_eraseDups, List.mem_filterMap]
    constructor
    · rintro ⟨r, hr, happly⟩
      exact ⟨r, (List.mergeSort_perm _ _).mem_iff.mp hr, Rule.apply_eq_some_iff.mp happly⟩
    · rintro ⟨r, hr, hderives⟩
      exact ⟨r, (List.mergeSort_perm _ _).mem_iff.mpr hr, Rule.apply_eq_some_iff.mpr hderives⟩
  · obtain ⟨a, ha⟩ := hexists c hc
    exact ⟨a, ha, fun b hb => hb.unique hasymm ha⟩

end Resolver

end Namesake
