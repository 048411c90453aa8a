import Namesake.Proofs.Overlap
import Namesake.Proofs.Reading

/-! An edit between characters turns one text into another one: what it takes out stands between two pieces that stay. Two
edits that lie apart may be applied one after the other, the later one first. -/

namespace Namesake

open Text Php.Lexer

theorem Php.Lexer.eq_nil_of_width {cs : List Char} (h : width cs = 0) : cs = [] := by
  by_contra hne
  exact absurd h (width_pos hne).ne'

/-- A piece in front of a text is known by its width. -/
theorem Php.Lexer.append_inj_of_width {front front' back back' : List Char} (h : front ++ back = front' ++ back')
    (hwidth : width front = width front') : front = front' ∧ back = back' := by
  rcases List.append_eq_append_iff.mp h with ⟨mid, rfl, rfl⟩ | ⟨mid, rfl, rfl⟩
  all_goals
    rw [width_append] at hwidth
    obtain rfl : mid = [] := eq_nil_of_width (by omega)
    simp

/-- Of two pieces in front of a text the narrower one stands in front of the wider one. -/
theorem Php.Lexer.exists_append_of_width {front front' back back' : List Char} (h : front ++ back = front' ++ back')
    (hwidth : width front ≤ width front') : ∃ mid, front' = front ++ mid ∧ back = mid ++ back' := by
  rcases List.append_eq_append_iff.mp h with ⟨mid, hfront, hback⟩ | ⟨mid, rfl, rfl⟩
  · exact ⟨mid, hfront, hback⟩
  · rw [width_append] at hwidth
    obtain rfl : mid = [] := eq_nil_of_width (by omega)
    exact ⟨[], by simp, by simp⟩

namespace Edit

/-- The edit takes `old` out of a text from between `front` and `back`. -/
structure Cuts (e : Edit) (s : String) (front old back : List Char) : Prop where
  text : s.toList = front ++ (old ++ back)
  offset : e.offset = width front
  length : e.length = width old

/-- The edit turns one text into another one. -/
def Turns (e : Edit) (s s' : String) : Prop :=
  ∃ front old back, e.Cuts s front old back ∧ s'.toList = front ++ (e.replacement.toList ++ back)

variable {e a b : Edit} {es : List Edit} {s s' : String} {front old back : List Char}

theorem Cuts.stop (h : e.Cuts s front old back) : e.stop = width front + width old := by
  rw [Edit.stop, h.offset, h.length]

theorem Cuts.encode_eq (h : e.Cuts s front old back) :
    Utf8.encode s = Utf8.encodeChars front ++ (Utf8.encodeChars old ++ Utf8.encodeChars back) := by
  rw [Utf8.encode, h.text, Utf8.encodeChars_append, Utf8.encodeChars_append]

/-- What an edit takes out is known by its numbers. -/
theorem Turns.toList_eq (h : e.Turns s s') (hcuts : e.Cuts s front old back) :
    s'.toList = front ++ (e.replacement.toList ++ back) := by
  obtain ⟨front', old', back', hcuts', hs'⟩ := h
  have htext := hcuts'.text
  rw [hcuts.text] at htext
  obtain ⟨rfl, hrest⟩ := append_inj_of_width htext (hcuts.offset.symm.trans hcuts'.offset)
  obtain ⟨rfl, rfl⟩ := append_inj_of_width hrest (hcuts.length.symm.trans hcuts'.length)
  exact hs'

/-- The edited text is the reading of the text from left to right. -/
theorem encode_of_applyAll (h : applyAll es s = .ok s') :
    (sorted es).Pairwise Before ∧ Utf8.encode s' = weave (Utf8.encode s) 0 (sorted es) := by
  rw [applyAll] at h
  rcases applyOctets_cases es (Utf8.encode s) with ⟨-, x, y, herror⟩ | ⟨-, -, x, herror⟩ | ⟨hover, -, hok⟩
  · rw [herror] at h
    cases h
  · rw [herror] at h
    cases h
  · rw [hok] at h
    dsimp only at h
    cases hdec : Utf8.decode? (weave (Utf8.encode s) 0 (sorted es)) with
    | error e =>
        rw [hdec] at h
        cases h
    | ok out =>
        rw [hdec] at h
        obtain rfl := Except.ok.inj h
        exact ⟨(not_overlapping_iff _).mp hover, Utf8.encode_of_decode? hdec⟩

theorem take_encode_front (h : e.Cuts s front old back) : (Utf8.encode s).take e.offset = Utf8.encodeChars front := by
  rw [h.encode_eq, h.offset, width_eq, List.take_left]

theorem drop_encode_back (h : e.Cuts s front old back) : (Utf8.encode s).drop e.stop = Utf8.encodeChars back := by
  rw [h.encode_eq, h.stop, width_eq, width_eq, ← List.append_assoc, ← List.length_append, List.drop_left]

/-- One edit. -/
theorem turns_of_applyAll (hcuts : e.Cuts s front old back) (h : applyAll [e] s = .ok s') : e.Turns s s' := by
  obtain ⟨-, hout⟩ := encode_of_applyAll h
  have hsorted : sorted [e] = [e] := List.mergeSort_singleton _
  have hs' : Utf8.encode s' = Utf8.encode (String.ofList (front ++ (e.replacement.toList ++ back))) := by
    calc Utf8.encode s' = (Utf8.encode s).take e.offset ++ Utf8.encode e.replacement ++ (Utf8.encode s).drop e.stop := by
          rw [hout, hsorted, weave, weave, List.drop_zero]
      _ = Utf8.encodeChars front ++ Utf8.encodeChars e.replacement.toList ++ Utf8.encodeChars back := by
          rw [take_encode_front hcuts, drop_encode_back hcuts, Utf8.encode]
      _ = Utf8.encode (String.ofList (front ++ (e.replacement.toList ++ back))) := by
          rw [Utf8.encode_ofList, Utf8.encodeChars_append, Utf8.encodeChars_append, List.append_assoc]
  refine ⟨front, old, back, hcuts, ?_⟩
  rw [Utf8.encode_injective hs', String.toList_ofList]

/-- Two edits of which the first one lies in front of the second one. -/
theorem exists_turns_of_weave {front' old' back' : List Char} (ha : a.Cuts s front old back) (hb : b.Cuts s front' old' back')
    (hbefore : Before a b) (h : Utf8.encode s' = weave (Utf8.encode s) 0 [a, b]) : ∃ s₁, b.Turns s s₁ ∧ a.Turns s₁ s' := by
  have htext := ha.text
  rw [hb.text, ← List.append_assoc front] at htext
  have hwidth : width (front ++ old) ≤ width front' := by
    rw [width_append, ← ha.stop, ← hb.offset]
    exact hbefore
  obtain ⟨mid, rfl, rfl⟩ := exists_append_of_width htext.symm hwidth
  refine ⟨String.ofList (front ++ old ++ mid ++ (b.replacement.toList ++ back')), ⟨_, _, _, hb, String.toList_ofList⟩,
    front, old, mid ++ (b.replacement.toList ++ back'), ⟨?_, ha.offset, ha.length⟩, ?_⟩
  · rw [String.toList_ofList, List.append_assoc, List.append_assoc]
  · have hmid : ((Utf8.encode s).take b.offset).drop a.stop = Utf8.encodeChars mid := by
      calc ((Utf8.encode s).take b.offset).drop a.stop
          = (Utf8.encodeChars (front ++ old ++ mid)).drop (width (front ++ old)) := by
            rw [take_encode_front hb, ha.stop, width_append]
        _ = Utf8.encodeChars mid := by rw [Utf8.encodeChars_append, width_eq, List.drop_left]
    have hs' : Utf8.encode s' = Utf8.encode (String.ofList
        (front ++ (a.replacement.toList ++ (mid ++ (b.replacement.toList ++ back'))))) := by
      calc Utf8.encode s' = Utf8.encodeChars front ++ Utf8.encodeChars a.replacement.toList ++
            (Utf8.encodeChars mid ++ Utf8.encodeChars b.replacement.toList ++ Utf8.encodeChars back') := by
            rw [h, weave, weave, weave, take_encode_front ha, hmid, drop_encode_back hb, List.drop_zero, Utf8.encode,
              Utf8.encode]
        _ = Utf8.encode (String.ofList (front ++ (a.replacement.toList ++ (mid ++ (b.replacement.toList ++ back'))))) := by
            simp only [Utf8.encode_ofList, Utf8.encodeChars_append, List.append_assoc]
    rw [Utf8.encode_injective hs', String.toList_ofList]

/-- Two edits may be applied one after the other, the later one first. -/
theorem exists_turns_of_applyAll {front' old' back' : List Char} (ha : a.Cuts s front old back)
    (hb : b.Cuts s front' old' back') (h : applyAll [a, b] s = .ok s') :
    (Before a b ∧ ∃ s₁, b.Turns s s₁ ∧ a.Turns s₁ s') ∨ (Before b a ∧ ∃ s₁, a.Turns s s₁ ∧ b.Turns s₁ s') := by
  obtain ⟨hbefore, hout⟩ := encode_of_applyAll h
  by_cases hle : a.offset ≤ b.offset
  · rw [sorted_pair_of_le hle] at hbefore hout
    have hab : Before a b := List.rel_of_pairwise_cons hbefore List.mem_cons_self
    exact .inl ⟨hab, exists_turns_of_weave ha hb hab hout⟩
  · rw [sorted_pair_of_lt (Nat.lt_of_not_le hle)] at hbefore hout
    have hba : Before b a := List.rel_of_pairwise_cons hbefore List.mem_cons_self
    exact .inr ⟨hba, exists_turns_of_weave hb ha hba hout⟩

end Edit

end Namesake
