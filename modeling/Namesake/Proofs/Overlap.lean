import Namesake.Proofs.Splice

/-! Which lists of edits are refused for an overlap. Two edits collide when they remove a common octet, or when one
of them is put strictly inside what the other one removes; that does not depend on how they are listed. The
listing does count where an edit that removes nothing is put at the very place from which another one removes
octets: edits of one offset stay in list order, so the insertion passes in front of the removal and is refused
behind it. These are all the refusals. -/

namespace Namesake.Edit

open Text

variable {a b : Edit} {edits edits' : List Edit}

/-- The second edit removes nothing and is put strictly inside what the first one removes. -/
def Splits (a b : Edit) : Prop :=
  b.length = 0 ∧ a.offset < b.offset ∧ b.offset < a.stop

/-- The edits remove a common octet, or one is put strictly inside what the other one removes. -/
def Collides (a b : Edit) : Prop :=
  (∃ n, (a.offset ≤ n ∧ n < a.stop) ∧ b.offset ≤ n ∧ n < b.stop) ∨ Splits a b ∨ Splits b a

/-- The second edit removes nothing and is put where the octets begin that the first one removes. -/
def Blocks (a b : Edit) : Prop :=
  a.offset = b.offset ∧ 0 < a.length ∧ b.length = 0

def Colliding (es : List Edit) : Prop :=
  ∃ i j : Fin es.length, i < j ∧ Collides (es.get i) (es.get j)

/-- An insertion is listed behind an edit that removes octets from its very place. -/
def Belated (es : List Edit) : Prop :=
  ∃ i j : Fin es.length, i < j ∧ Blocks (es.get i) (es.get j)

/-- The first edit is listed before the second one, and whichever comes first in the text ends before the other. -/
def Fits (a b : Edit) : Prop :=
  (a.offset ≤ b.offset → Before a b) ∧ (b.offset < a.offset → Before b a)

theorem not_exists_pair_iff (R : Edit → Edit → Prop) (es : List Edit) :
    (¬ ∃ i j : Fin es.length, i < j ∧ R (es.get i) (es.get j)) ↔ es.Pairwise fun a b => ¬ R a b := by
  rw [List.pairwise_iff_get]
  constructor
  · intro h i j hij hR
    exact h ⟨i, j, hij, hR⟩
  · rintro h ⟨i, j, hij, hR⟩
    exact h i j hij hR

/-! ### Two edits -/

theorem Collides.symm (h : Collides a b) : Collides b a := by
  rcases h with ⟨n, ha, hb⟩ | hab | hba
  · exact .inl ⟨n, hb, ha⟩
  · exact .inr (.inr hab)
  · exact .inr (.inl hba)

/-- Of two edits at different offsets the first one ends before the second one exactly if they do not collide. -/
theorem collides_iff_of_lt (h : a.offset < b.offset) : Collides a b ↔ b.offset < a.stop := by
  have ha : a.stop = a.offset + a.length := rfl
  have hb : b.stop = b.offset + b.length := rfl
  constructor
  · rintro (⟨n, hn⟩ | hab | hba)
    · omega
    · exact hab.2.2
    · exact absurd hba.2.1 (Nat.lt_asymm h)
  · intro hlt
    rcases Nat.eq_zero_or_pos b.length with hnone | hsome
    · exact .inr (.inl ⟨hnone, h, hlt⟩)
    · exact .inl ⟨b.offset, by omega⟩

/-- Edits at one offset collide if both remove octets. -/
theorem collides_iff_of_eq (h : a.offset = b.offset) : Collides a b ↔ 0 < a.length ∧ 0 < b.length := by
  have ha : a.stop = a.offset + a.length := rfl
  have hb : b.stop = b.offset + b.length := rfl
  constructor
  · rintro (⟨n, hn⟩ | ⟨-, hlt, -⟩ | ⟨-, hlt, -⟩)
    · omega
    · exact absurd h (Nat.ne_of_lt hlt)
    · exact absurd h.symm (Nat.ne_of_lt hlt)
  · rintro ⟨hpos, hpos'⟩
    exact .inl ⟨a.offset, by omega⟩

theorem fits_iff : Fits a b ↔ ¬ Collides a b ∧ ¬ Blocks a b := by
  have ha : a.stop = a.offset + a.length := rfl
  rcases Nat.lt_trichotomy a.offset b.offset with hlt | heq | hgt
  · have hblocks : ¬ Blocks a b := fun h => Nat.ne_of_lt hlt h.1
    rw [collides_iff_of_lt hlt, and_iff_left hblocks, Nat.not_lt]
    exact ⟨fun h => h.1 hlt.le, fun h => ⟨fun _ => h, fun hgt => absurd hgt (Nat.lt_asymm hlt)⟩⟩
  · rw [collides_iff_of_eq heq, Fits, Before, Blocks]
    omega
  · have hblocks : ¬ Blocks a b := fun h => Nat.ne_of_gt hgt h.1
    have hcomm : Collides a b ↔ Collides b a := ⟨.symm, .symm⟩
    rw [hcomm, collides_iff_of_lt hgt, and_iff_left hblocks, Nat.not_lt]
    exact ⟨fun h => h.2 hgt, fun h => ⟨fun hle => absurd hgt (Nat.not_lt_of_le hle), fun _ => h⟩⟩

/-! ### Lists -/

/-- Sorting by offset puts each edit behind those of smaller offsets that are listed after it, and before the rest. -/
theorem sorted_cons (a : Edit) (es : List Edit) :
    ∃ front back, sorted (a :: es) = front ++ a :: back ∧ sorted es = front ++ back ∧
      (∀ b ∈ front, b.offset < a.offset) ∧ ∀ b ∈ back, a.offset ≤ b.offset := by
  obtain ⟨front, back, hall, hrest, hfront⟩ := List.mergeSort_cons offset_le_trans offset_le_total a es
  refine ⟨front, back, hall, hrest, fun b hb => ?_, fun b hb => ?_⟩
  · have hlt := hfront b hb
    rw [Bool.not_eq_true', decide_eq_false_iff_not] at hlt
    exact Nat.lt_of_not_le hlt
  · have hsorted := sorted_pairwise (a :: es)
    rw [sorted, hall] at hsorted
    exact (List.pairwise_cons.mp (List.pairwise_append.mp hsorted).2.1).1 b hb

/-- The neighbours of the sorted list are apart exactly if any two edits of the list fit as they are listed. -/
theorem sorted_pairwise_before_iff (es : List Edit) : (sorted es).Pairwise Before ↔ es.Pairwise Fits := by
  induction es with
  | nil =>
      have hnil : sorted [] = [] := List.mergeSort_nil
      rw [hnil]
      exact iff_of_true .nil .nil
  | cons a es ih =>
      obtain ⟨front, back, hall, hrest, hfront, hback⟩ := sorted_cons a es
      have hmem (b : Edit) : b ∈ es ↔ b ∈ front ∨ b ∈ back := by
        rw [← mem_sorted, hrest, List.mem_append]
      have hself : (∀ b ∈ es, Fits a b) ↔ (∀ b ∈ front, Before b a) ∧ ∀ b ∈ back, Before a b := by
        simp only [hmem, or_imp, forall_and]
        refine and_congr (forall₂_congr fun b hb => ?_) (forall₂_congr fun b hb => ?_)
        · exact ⟨fun h => h.2 (hfront b hb), fun h => ⟨fun hle => absurd (hfront b hb) (Nat.not_lt_of_le hle), fun _ => h⟩⟩
        · exact ⟨fun h => h.1 (hback b hb), fun h => ⟨fun _ => h, fun hlt => absurd hlt (Nat.not_lt_of_le (hback b hb))⟩⟩
      rw [List.pairwise_cons, ← ih, hself, hall, hrest, List.pairwise_append, List.pairwise_append, List.pairwise_cons]
      simp only [List.forall_mem_cons, forall_and]
      tauto

theorem overlapping_sorted_iff (es : List Edit) : Overlapping (sorted es) ↔ Colliding es ∨ Belated es := by
  rw [← not_iff_not]
  calc ¬ Overlapping (sorted es) ↔ (sorted es).Pairwise Before := not_overlapping_iff _
    _ ↔ es.Pairwise Fits := sorted_pairwise_before_iff es
    _ ↔ es.Pairwise fun a b => ¬ Collides a b ∧ ¬ Blocks a b := List.Pairwise.iff fun a b => fits_iff
    _ ↔ ¬ Colliding es ∧ ¬ Belated es := by
        rw [List.pairwise_and_iff, Colliding, Belated, not_exists_pair_iff, not_exists_pair_iff]
    _ ↔ ¬ (Colliding es ∨ Belated es) := not_or.symm

theorem refused_iff_overlapping (es : List Edit) (text : String) :
    (∃ a b, applyAll es text = .error (.overlap a b)) ↔ Overlapping (sorted es) := by
  simp only [applyAll_eq_error_iff (r := .overlap _ _) (fun _ => Refusal.noConfusion)]
  rcases applyOctets_cases es (Utf8.encode text) with ⟨hover, a, b, h⟩ | ⟨hover, -, e, h⟩ | ⟨hover, -, h⟩
  · exact iff_of_true ⟨a, b, h⟩ hover
  · exact iff_of_false (by simp [h]) hover
  · exact iff_of_false (by simp [h]) hover

theorem colliding_perm (h : edits'.Perm edits) : Colliding edits' ↔ Colliding edits := by
  rw [← not_iff_not, Colliding, Colliding, not_exists_pair_iff, not_exists_pair_iff]
  exact h.pairwise_iff fun hne hcollides => hne hcollides.symm

/-- With all insertions in front none of them is belated. -/
theorem not_belated_insertions_first (es : List Edit) :
    ¬ Belated (es.filter (fun e => e.length = 0) ++ es.filter fun e => !decide (e.length = 0)) := by
  rw [Belated, not_exists_pair_iff, List.pairwise_append]
  have hinsertion {e : Edit} (he : e ∈ es.filter fun e => e.length = 0) : e.length = 0 :=
    of_decide_eq_true (List.mem_filter.mp he).2
  have hremoval {e : Edit} (he : e ∈ es.filter fun e => !decide (e.length = 0)) : e.length ≠ 0 := by
    have h := (List.mem_filter.mp he).2
    rwa [Bool.not_eq_true', decide_eq_false_iff_not] at h
  refine ⟨?_, ?_, fun a ha b _ h => ?_⟩
  · exact List.pairwise_of_forall_mem_list fun a ha b _ h => Nat.ne_of_gt h.2.1 (hinsertion ha)
  · exact List.pairwise_of_forall_mem_list fun a _ b hb h => hremoval hb h.2.2
  · exact Nat.ne_of_gt h.2.1 (hinsertion ha)

theorem belated_of_mem (h : Belated edits) : ∃ a ∈ edits, ∃ b ∈ edits, Blocks a b := by
  obtain ⟨i, j, -, hblocks⟩ := h
  exact ⟨_, edits.get_mem i, _, edits.get_mem j, hblocks⟩

/-- A list is refused for an overlap exactly when two of its edits collide, which does not depend on their order, or
an insertion is listed behind an edit that removes octets from its very place. So two listings of the same
edits fare alike as long as in neither of them an insertion is belated, which no listing can bring about where no
insertion is put at the beginning of a removed range; and each list has a listing that is refused only if
two edits collide. -/
theorem refused_iff_colliding_or_belated (edits : List Edit) (text : String) :
    let refused := fun es => ∃ a b, applyAll es text = .error (.overlap a b)
    (refused edits ↔ Colliding edits ∨ Belated edits) ∧
    (∀ edits', edits'.Perm edits →
      (Colliding edits' ↔ Colliding edits) ∧ (¬ Belated edits → ¬ Belated edits' → (refused edits' ↔ refused edits))) ∧
    ((∀ a ∈ edits, ∀ b ∈ edits, ¬ Blocks a b) → ∀ edits', edits'.Perm edits → (refused edits' ↔ refused edits)) ∧
    ∃ edits', edits'.Perm edits ∧ (refused edits' ↔ Colliding edits) := by
  intro refused
  have hrefused (es : List Edit) : refused es ↔ Colliding es ∨ Belated es := by
    rw [← overlapping_sorted_iff]
    exact refused_iff_overlapping es text
  have hsame (edits' : List Edit) (hperm : edits'.Perm edits) (h : ¬ Belated edits) (h' : ¬ Belated edits') :
      refused edits' ↔ refused edits := by
    rw [hrefused, hrefused, or_iff_left h, or_iff_left h', colliding_perm hperm]
  refine ⟨hrefused edits, fun edits' hperm => ⟨colliding_perm hperm, hsame edits' hperm⟩, ?_, ?_⟩
  · intro hblocks edits' hperm
    apply hsame edits' hperm
    · intro h
      obtain ⟨a, ha, b, hb, hab⟩ := belated_of_mem h
      exact hblocks a ha b hb hab
    · intro h
      obtain ⟨a, ha, b, hb, hab⟩ := belated_of_mem h
      exact hblocks a (hperm.mem_iff.mp ha) b (hperm.mem_iff.mp hb) hab
  · have hperm := List.filter_append_perm (fun e : Edit => decide (e.length = 0)) edits
    refine ⟨_, hperm, ?_⟩
    rw [hrefused, or_iff_left (not_belated_insertions_first edits), colliding_perm hperm]

/-- What is put in front of a character that is replaced is refused if it is listed behind the replacement, though the
two edits have no octet in common; listed the other way round they are applied. -/
theorem refused_when_belated :
    let edits : List Edit := [⟨0, 1, "x"⟩, ⟨0, 0, "y"⟩]
    ¬ Colliding edits ∧ (∃ a b, applyAll edits "ab" = .error (.overlap a b)) ∧
      edits.reverse.Perm edits ∧ applyAll edits.reverse "ab" = .ok "yxb" := by
  intro edits
  have hapart : ¬ Colliding edits := by
    have hplace : (⟨0, 1, "x"⟩ : Edit).offset = (⟨0, 0, "y"⟩ : Edit).offset := rfl
    rw [Colliding, not_exists_pair_iff, List.pairwise_pair, collides_iff_of_eq hplace]
    decide
  have hbelated : Belated edits := ⟨⟨0, by decide⟩, ⟨1, by decide⟩, by decide, rfl, Nat.one_pos, rfl⟩
  have hsorted : sorted edits.reverse = edits.reverse := List.mergeSort_of_pairwise (by decide)
  refine ⟨hapart, ?_, List.reverse_perm edits, ?_⟩
  · exact (refused_iff_overlapping edits "ab").mpr ((overlapping_sorted_iff edits).mpr (.inr hbelated))
  · rw [applyAll, applyOctets, hsorted]
    decide +kernel

end Namesake.Edit
