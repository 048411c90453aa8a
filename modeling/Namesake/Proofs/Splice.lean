import Mathlib.Tactic
import Namesake.Edit

/-! Applying a list of edits puts all of them into the text at once. `weave` reads the text once from
left to right and knows nothing of an order of application; the splices, which go from right to left,
give the same octets, because a splice leaves alone whatever lies in front of its edit. The refusals are
those of the whole list: neighbours are enough to find an overlap between any two edits, and the last
edit is the one that ends last. -/

namespace Namesake.Edit

open Text

theorem offset_le_stop (e : Edit) : e.offset ≤ e.stop :=
  Nat.le_add_right _ _

/-- The first edit ends before the second one begins. -/
def Before (a b : Edit) : Prop := a.stop ≤ b.offset

theorem Before.trans {a b c : Edit} (hab : Before a b) (hbc : Before b c) : Before a c :=
  Nat.le_trans hab (b.offset_le_stop.trans hbc)

instance : IsTrans Edit Before := ⟨fun _ _ _ => Before.trans⟩

/-- Some edit of the list begins before one in front of it ends. -/
def Overlapping (es : List Edit) : Prop :=
  ∃ i j : Fin es.length, i < j ∧ (es.get j).offset < (es.get i).stop

/-- The octets from `pos` on with the edits of a sorted list in them: the octets between the edits as they
are, and in the place of every edit its replacement. -/
def weave (data : Octets) (pos : Nat) : List Edit → Octets
  | [] => data.drop pos
  | e :: es => (data.take e.offset).drop pos ++ Utf8.encode e.replacement ++ weave data e.stop es

/-! ### The order of the edits -/

theorem sorted_perm (edits : List Edit) : (sorted edits).Perm edits :=
  List.mergeSort_perm _ _

theorem mem_sorted {edits : List Edit} {e : Edit} : e ∈ sorted edits ↔ e ∈ edits :=
  List.mem_mergeSort

theorem offset_le_trans (a b c : Edit) (hab : decide (a.offset ≤ b.offset) = true)
    (hbc : decide (b.offset ≤ c.offset) = true) : decide (a.offset ≤ c.offset) = true := by
  simp only [decide_eq_true_eq] at *
  omega

theorem offset_le_total (a b : Edit) :
    (decide (a.offset ≤ b.offset) || decide (b.offset ≤ a.offset)) = true := by
  simp only [Bool.or_eq_true, decide_eq_true_eq]
  omega

theorem sorted_pairwise (edits : List Edit) : (sorted edits).Pairwise fun a b => a.offset ≤ b.offset := by
  have h := List.pairwise_mergeSort offset_le_trans offset_le_total edits
  simpa only [sorted, decide_eq_true_eq] using h

/-- Sorting keeps the order of the edits of one offset. -/
theorem filter_sorted (edits : List Edit) (o : Nat) :
    (sorted edits).filter (fun e => e.offset = o) = edits.filter fun e => e.offset = o := by
  have hsame : (edits.filter fun e => e.offset = o).Pairwise
      fun a b => decide (a.offset ≤ b.offset) = true := by
    refine List.pairwise_of_forall_mem_list fun a ha b hb => ?_
    have ha := of_decide_eq_true (List.mem_filter.mp ha).2
    have hb := of_decide_eq_true (List.mem_filter.mp hb).2
    rw [decide_eq_true_eq, ha, hb]
  have hsub := (List.sublist_mergeSort offset_le_trans offset_le_total hsame
    (List.filter_sublist (l := edits))).filter (fun e => decide (e.offset = o))
  rw [List.filter_filter] at hsub
  simp only [Bool.and_self] at hsub
  exact (hsub.eq_of_length (((sorted_perm edits).filter _).length_eq.symm)).symm

theorem sorted_pair_of_le {a b : Edit} (h : a.offset ≤ b.offset) : sorted [a, b] = [a, b] :=
  List.mergeSort_of_pairwise (by simpa using h)

theorem sorted_pair_of_lt {a b : Edit} (h : b.offset < a.offset) : sorted [a, b] = [b, a] := by
  have hperm := (sorted_perm [a, b]).trans (List.Perm.swap b a [])
  refine hperm.eq_of_pairwise ?_ (sorted_pairwise _) (by simpa using h.le)
  intro p q hp hq hpq hqp
  rw [mem_sorted] at hp
  simp only [List.mem_cons, List.not_mem_nil, or_false] at hp hq
  rcases hp with rfl | rfl <;> rcases hq with rfl | rfl <;> first | rfl | omega

/-! ### Overlaps and the last edit -/

/-- Looking at neighbours finds an overlap between any two edits. -/
theorem clash?_eq_none_iff (es : List Edit) : clash? es = none ↔ es.Pairwise Before := by
  rw [← List.isChain_iff_pairwise]
  induction es with
  | nil => simp [clash?]
  | cons a es ih =>
      cases es with
      | nil => simp [clash?]
      | cons b es =>
          rw [clash?, List.isChain_cons_cons, ← ih]
          by_cases h : b.offset < a.stop
          · simp [h, Before]
          · simp [h, Before, Nat.le_of_not_lt h]

theorem not_overlapping_iff (es : List Edit) : ¬ Overlapping es ↔ es.Pairwise Before := by
  rw [List.pairwise_iff_get]
  constructor
  · intro h i j hij
    by_contra hlt
    exact h ⟨i, j, hij, Nat.lt_of_not_le hlt⟩
  · rintro h ⟨i, j, hij, hlt⟩
    exact absurd (h i j hij) (Nat.not_le_of_lt hlt)

/-- Of edits that do not overlap none ends after the last one. -/
theorem stop_le_of_getLast? {es : List Edit} {last e : Edit} (h : es.Pairwise Before)
    (hlast : es.getLast? = some last) (he : e ∈ es) : e.stop ≤ last.stop := by
  obtain ⟨front, rfl⟩ := List.getLast?_eq_some_iff.mp hlast
  rcases List.mem_append.mp he with hfront | hself
  · have hbefore : Before e last := (List.pairwise_append.mp h).2.2 e hfront last (List.mem_singleton_self _)
    exact Nat.le_trans hbefore last.offset_le_stop
  · rw [List.mem_singleton.mp hself]

/-! ### The splices from right to left -/

/-- Splices leave alone what lies in front of their edits. -/
theorem take_spliceAll {es : List Edit} {data : Octets} {n : Nat} (hn : n ≤ data.length)
    (hes : ∀ e ∈ es, n ≤ e.offset) : (spliceAll es data).take n = data.take n := by
  induction es with
  | nil => rfl
  | cons e es ih =>
      have hrest := ih fun e' he' => hes e' (List.mem_cons_of_mem _ he')
      have he : n ≤ e.offset := hes e List.mem_cons_self
      have hlen : n ≤ ((spliceAll es data).take e.offset).length := by
        have := congrArg List.length hrest
        simp only [List.length_take] at this ⊢
        omega
      calc (spliceAll (e :: es) data).take n = ((spliceAll es data).take e.offset).take n := by
            rw [spliceAll_cons, splice, List.append_assoc, List.take_append_of_le_length hlen]
        _ = (spliceAll es data).take n := by rw [List.take_take, Nat.min_eq_left he]
        _ = data.take n := hrest

/-- When only the edits from `pos` on are in, the text is its old self up to `pos` and their reading from
left to right after it. -/
theorem spliceAll_eq_weave {es : List Edit} {data : Octets} {pos : Nat} (hpos : ∀ e ∈ es, pos ≤ e.offset)
    (hes : es.Pairwise Before) (hfit : ∀ e ∈ es, e.stop ≤ data.length) :
    spliceAll es data = data.take pos ++ weave data pos es := by
  induction es generalizing pos with
  | nil => exact (List.take_append_drop pos data).symm
  | cons e es ih =>
      obtain ⟨hfirst, hrest⟩ := List.pairwise_cons.mp hes
      have hstop : e.stop ≤ data.length := hfit e List.mem_cons_self
      have hoff : pos ≤ e.offset := hpos e List.mem_cons_self
      have hle := e.offset_le_stop
      have hback := ih hfirst hrest fun e' he' => hfit e' (List.mem_cons_of_mem _ he')
      have htake : (spliceAll es data).take e.offset = data.take e.offset :=
        take_spliceAll (hle.trans hstop) fun e' he' => hle.trans (hfirst e' he')
      have hdrop : (spliceAll es data).drop e.stop = weave data e.stop es := by
        rw [hback, List.drop_left' (by rw [List.length_take, Nat.min_eq_left hstop])]
      have hsplit : data.take e.offset = data.take pos ++ (data.take e.offset).drop pos := by
        have := (List.take_append_drop pos (data.take e.offset)).symm
        rwa [List.take_take, Nat.min_eq_left hoff] at this
      calc spliceAll (e :: es) data
          = (spliceAll es data).take e.offset ++ Utf8.encode e.replacement ++ (spliceAll es data).drop e.stop := by
            rw [spliceAll_cons, splice]
        _ = data.take e.offset ++ Utf8.encode e.replacement ++ weave data e.stop es := by rw [htake, hdrop]
        _ = data.take pos ++ weave data pos (e :: es) := by
            rw [weave, ← List.append_assoc, ← List.append_assoc, ← hsplit]

theorem length_weave {es : List Edit} {data : Octets} {pos : Nat} (hpos : ∀ e ∈ es, pos ≤ e.offset)
    (hes : es.Pairwise Before) (hfit : ∀ e ∈ es, e.stop ≤ data.length) (hle : pos ≤ data.length) :
    pos + (weave data pos es).length + (es.map length).sum =
      data.length + (es.map fun e => (Utf8.encode e.replacement).length).sum := by
  induction es generalizing pos with
  | nil =>
      simp only [weave, List.length_drop, List.map_nil, List.sum_nil]
      omega
  | cons e es ih =>
      obtain ⟨hfirst, hrest⟩ := List.pairwise_cons.mp hes
      have hstop : e.stop ≤ data.length := hfit e List.mem_cons_self
      have hoff : pos ≤ e.offset := hpos e List.mem_cons_self
      have hback := ih hfirst hrest (fun e' he' => hfit e' (List.mem_cons_of_mem _ he')) hstop
      simp only [weave, List.length_append, List.length_drop, List.length_take, List.map_cons, List.sum_cons]
      have hdef : e.stop = e.offset + e.length := rfl
      omega

/-! ### Applying a list -/

theorem applyOctets_of_overlapping {edits : List Edit} {data : Octets} (h : Overlapping (sorted edits)) :
    ∃ a b, applyOctets edits data = .error (.overlap a b) := by
  cases hclash : clash? (sorted edits) with
  | none => exact absurd h ((not_overlapping_iff _).mpr ((clash?_eq_none_iff _).mp hclash))
  | some ab => exact ⟨ab.1, ab.2, by simp only [applyOctets, hclash]⟩

theorem applyOctets_of_past {edits : List Edit} {data : Octets} (h : ¬ Overlapping (sorted edits))
    (hpast : ∃ e ∈ edits, data.length < e.stop) :
    ∃ e, applyOctets edits data = .error (.pastEnd e data.length) := by
  obtain ⟨e, he, hlt⟩ := hpast
  have hes := (not_overlapping_iff _).mp h
  have hne : sorted edits ≠ [] := List.ne_nil_of_mem (mem_sorted.mpr he)
  obtain ⟨last, hlast⟩ := Option.ne_none_iff_exists'.mp (mt List.getLast?_eq_none_iff.mp hne)
  have hle := stop_le_of_getLast? hes hlast (mem_sorted.mpr he)
  refine ⟨last, ?_⟩
  simp only [applyOctets, (clash?_eq_none_iff _).mpr hes, hlast, if_pos (hlt.trans_le hle)]

theorem applyOctets_of_fits {edits : List Edit} {data : Octets} (h : ¬ Overlapping (sorted edits))
    (hfit : ∀ e ∈ edits, e.stop ≤ data.length) :
    applyOctets edits data = .ok (weave data 0 (sorted edits)) := by
  have hes := (not_overlapping_iff _).mp h
  have hfit' : ∀ e ∈ sorted edits, e.stop ≤ data.length := fun e he => hfit e (mem_sorted.mp he)
  have hweave := spliceAll_eq_weave (fun e _ => Nat.zero_le e.offset) hes hfit'
  rw [List.take_zero, List.nil_append] at hweave
  simp only [applyOctets, (clash?_eq_none_iff _).mpr hes]
  cases hlast : (sorted edits).getLast? with
  | none => rw [List.getLast?_eq_none_iff.mp hlast]; rfl
  | some last =>
      have hin : last.stop ≤ data.length := hfit' last (List.mem_of_getLast? hlast)
      simp only [if_neg (Nat.not_lt_of_le hin), hweave]

/-- The three ways in which applying a list can end, before the octets are read back. -/
theorem applyOctets_cases (edits : List Edit) (data : Octets) :
    (Overlapping (sorted edits) ∧ ∃ a b, applyOctets edits data = .error (.overlap a b)) ∨
    (¬ Overlapping (sorted edits) ∧ (∃ e ∈ edits, data.length < e.stop) ∧
      ∃ e, applyOctets edits data = .error (.pastEnd e data.length)) ∨
    (¬ Overlapping (sorted edits) ∧ (∀ e ∈ edits, e.stop ≤ data.length) ∧
      applyOctets edits data = .ok (weave data 0 (sorted edits))) := by
  by_cases hover : Overlapping (sorted edits)
  · exact .inl ⟨hover, applyOctets_of_overlapping hover⟩
  · by_cases hpast : ∃ e ∈ edits, data.length < e.stop
    · exact .inr (.inl ⟨hover, hpast, applyOctets_of_past hover hpast⟩)
    · push Not at hpast
      exact .inr (.inr ⟨hover, hpast, applyOctets_of_fits hover hpast⟩)

/-- Reading the octets back adds no refusal but its own. -/
theorem applyAll_eq_error_iff {edits : List Edit} {text : String} {r : Refusal}
    (hr : ∀ e, r ≠ .undecodable e) :
    applyAll edits text = .error r ↔ applyOctets edits (Utf8.encode text) = .error r := by
  unfold applyAll
  cases applyOctets edits (Utf8.encode text) with
  | error r' => simp only [Except.error.injEq]
  | ok data =>
      cases hdata : Utf8.decode? data with
      | error e => simp only [hdata, reduceCtorEq, iff_false, Except.error.injEq]; exact (hr e).symm
      | ok s => simp only [hdata, reduceCtorEq]

/-- The whole of what applying a list does, for any list and text. The edits are taken in the stable order of
their offsets. The list is refused for an overlap exactly when any two of its edits overlap, else for its
end exactly when any of its edits ends past the text. Otherwise the octets are those of the reading from left to right, their
number is that of the text less what is removed and more what is put in, and when the turn of an edit comes
the text is still untouched up to the end of that edit, so no offset is ever out of date. -/
theorem applyAll_simultaneous (edits : List Edit) (text : String) :
    ((sorted edits).Perm edits ∧ (sorted edits).Pairwise (fun a b => a.offset ≤ b.offset) ∧
      ∀ o, (sorted edits).filter (fun e => e.offset = o) = edits.filter fun e => e.offset = o) ∧
    ((∃ a b, applyAll edits text = .error (.overlap a b)) ↔ Overlapping (sorted edits)) ∧
    ((∃ e n, applyAll edits text = .error (.pastEnd e n)) ↔
      ¬ Overlapping (sorted edits) ∧ ∃ e ∈ edits, (Utf8.encode text).length < e.stop) ∧
    (∀ out, applyOctets edits (Utf8.encode text) = .ok out ↔
      ¬ Overlapping (sorted edits) ∧ (∀ e ∈ edits, e.stop ≤ (Utf8.encode text).length) ∧
      out = weave (Utf8.encode text) 0 (sorted edits) ∧
      out.length + (edits.map length).sum =
        (Utf8.encode text).length + (edits.map fun e => (Utf8.encode e.replacement).length).sum ∧
      ∀ front e back, sorted edits = front ++ e :: back →
        (spliceAll back (Utf8.encode text)).take e.stop = (Utf8.encode text).take e.stop) := by
  have hweave (hover : ¬ Overlapping (sorted edits))
      (hfit : ∀ e ∈ edits, e.stop ≤ (Utf8.encode text).length) :=
    length_weave (fun e _ => Nat.zero_le e.offset) ((not_overlapping_iff _).mp hover)
      (fun e he => hfit e (mem_sorted.mp he)) (Nat.zero_le (Utf8.encode text).length)
  have huntouched (hover : ¬ Overlapping (sorted edits))
      (hfit : ∀ e ∈ edits, e.stop ≤ (Utf8.encode text).length) (front : List Edit) (e : Edit)
      (back : List Edit) (hsplit : sorted edits = front ++ e :: back) :
      (spliceAll back (Utf8.encode text)).take e.stop = (Utf8.encode text).take e.stop := by
    have hes := (not_overlapping_iff _).mp hover
    rw [hsplit] at hes
    refine take_spliceAll (hfit e ?_) (List.pairwise_cons.mp (List.pairwise_append.mp hes).2.1).1
    rw [← mem_sorted, hsplit]
    exact List.mem_append_right _ List.mem_cons_self
  refine ⟨⟨sorted_perm edits, sorted_pairwise edits, filter_sorted edits⟩, ?_, ?_, fun out => ?_⟩
  · simp only [applyAll_eq_error_iff (r := .overlap _ _) (fun _ => Refusal.noConfusion)]
    rcases applyOctets_cases edits (Utf8.encode text) with ⟨hover, a, b, h⟩ | ⟨hover, -, e, h⟩ | ⟨hover, -, h⟩
    · exact iff_of_true ⟨a, b, h⟩ hover
    · exact iff_of_false (by simp [h]) hover
    · exact iff_of_false (by simp [h]) hover
  · simp only [applyAll_eq_error_iff (r := .pastEnd _ _) (fun _ => Refusal.noConfusion)]
    rcases applyOctets_cases edits (Utf8.encode text) with
      ⟨hover, a, b, h⟩ | ⟨hover, hpast, e, h⟩ | ⟨hover, hfit, h⟩
    · exact iff_of_false (by simp [h]) fun hno => hno.1 hover
    · exact iff_of_true ⟨e, _, h⟩ ⟨hover, hpast⟩
    · exact iff_of_false (by simp [h]) fun ⟨_, e, he, hlt⟩ => Nat.not_lt_of_le (hfit e he) hlt
  · rcases applyOctets_cases edits (Utf8.encode text) with
      ⟨hover, a, b, h⟩ | ⟨hover, ⟨e, he, hlt⟩, e', h⟩ | ⟨hover, hfit, h⟩
    · exact iff_of_false (by simp [h]) fun hno => hno.1 hover
    · exact iff_of_false (by simp [h]) fun hno => Nat.not_lt_of_le (hno.2.1 e he) hlt
    · rw [h, Except.ok.injEq]
      refine ⟨?_, fun hout => hout.2.2.1.symm⟩
      rintro rfl
      refine ⟨hover, hfit, rfl, ?_, huntouched hover hfit⟩
      have hlen := hweave hover hfit
      rw [Nat.zero_add, ((sorted_perm edits).map length).sum_eq,
        ((sorted_perm edits).map fun e => (Utf8.encode e.replacement).length).sum_eq] at hlen
      exact hlen

end Namesake.Edit
