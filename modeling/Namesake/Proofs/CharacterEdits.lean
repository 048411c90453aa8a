import Namesake.Proofs.Overlap
import Namesake.Proofs.Utf8

/-! Edits whose ends lie between characters are edits of characters. A position between two characters of a text is
known by the number of characters before it, and octets between two such positions are those of the
characters between them. So the octets that a list of such edits yields are those of the text cut at these numbers of
characters, with the replacements in place; reading them back cannot fail. -/

namespace Namesake

namespace Text.Utf8

/-- How many characters of a text end at or before a position in its octets. -/
def charsBefore : List Char → Nat → Nat
  | [], _ => 0
  | c :: cs, n => if n < c.utf8Size then 0 else charsBefore cs (n - c.utf8Size) + 1

theorem charsBefore_append (front back : List Char) :
    charsBefore (front ++ back) (encodeChars front).length = front.length := by
  induction front with
  | nil =>
      cases back with
      | nil => rfl
      | cons c back =>
          rw [List.nil_append, charsBefore, if_pos]
          · rfl
          · exact c.utf8Size_pos
  | cons c front ih =>
      have hsize : (encodeChars (c :: front)).length = c.utf8Size + (encodeChars front).length := by
        rw [encodeChars, List.flatMap_cons, List.length_append, String.length_utf8EncodeChar, ← encodeChars]
      rw [List.cons_append, charsBefore, hsize, if_neg (Nat.not_lt.mpr (Nat.le_add_right _ _)), Nat.add_sub_cancel_left, ih,
        List.length_cons]

theorem charsBefore_zero (cs : List Char) : charsBefore cs 0 = 0 :=
  charsBefore_append [] cs

theorem charsBefore_mono (cs : List Char) {m n : Nat} (h : m ≤ n) : charsBefore cs m ≤ charsBefore cs n := by
  induction cs generalizing m n with
  | nil => exact Nat.le_refl 0
  | cons c cs ih =>
      rw [charsBefore, charsBefore]
      by_cases hm : m < c.utf8Size
      · rw [if_pos hm]
        exact Nat.zero_le _
      · have hn : ¬ n < c.utf8Size := fun hn => hm (Nat.lt_of_le_of_lt h hn)
        rw [if_neg hm, if_neg hn]
        exact Nat.succ_le_succ (ih (Nat.sub_le_sub_right h _))

theorem IsBorder.charsBefore_le {cs : List Char} {n : Nat} (h : IsBorder cs n) : charsBefore cs n ≤ cs.length := by
  obtain ⟨front, back, rfl, rfl⟩ := h
  rw [charsBefore_append, List.length_append]
  exact Nat.le_add_right _ _

/-- The characters before a border are the ones that are counted. -/
theorem IsBorder.length_take {cs : List Char} {n : Nat} (h : IsBorder cs n) :
    (encodeChars (cs.take (charsBefore cs n))).length = n := by
  obtain ⟨front, back, rfl, rfl⟩ := h
  rw [charsBefore_append, List.take_left]

/-- The octets between two borders are those of the characters between them. -/
theorem IsBorder.slice {cs : List Char} {m n : Nat} (hm : IsBorder cs m) (hn : IsBorder cs n) :
    ((encodeChars cs).take n).drop m = encodeChars ((cs.take (charsBefore cs n)).drop (charsBefore cs m)) := by
  obtain ⟨front, back, rfl, rfl⟩ := hm
  obtain ⟨front', back', heq, rfl⟩ := hn
  rw [charsBefore_append, heq, charsBefore_append, encodeChars_append, List.take_left, List.take_left]
  rcases List.append_eq_append_iff.mp heq with ⟨as, rfl, -⟩ | ⟨bs, rfl, -⟩
  · rw [encodeChars_append, List.drop_left, List.drop_left]
  · have hoctets : (encodeChars front').length ≤ (encodeChars (front' ++ bs)).length := by
      rw [encodeChars_append, List.length_append]
      exact Nat.le_add_right _ _
    have hchars : front'.length ≤ (front' ++ bs).length := by
      rw [List.length_append]
      exact Nat.le_add_right _ _
    rw [List.drop_eq_nil_of_le hoctets, List.drop_eq_nil_of_le hchars]
    rfl

theorem IsBorder.drop {cs : List Char} {n : Nat} (h : IsBorder cs n) :
    (encodeChars cs).drop n = encodeChars (cs.drop (charsBefore cs n)) := by
  obtain ⟨front, back, rfl, rfl⟩ := h
  rw [charsBefore_append, encodeChars_append, List.drop_left, List.drop_left]

end Text.Utf8

open Text Utf8

/-- Takes out what stands between two numbers of characters and puts other characters there. -/
structure CharEdit where
  start : Nat
  stop : Nat
  replacement : List Char

/-- The characters from `pos` on, cut at the edits of a list, with the replacements put in. -/
def CharEdit.weave (cs : List Char) (pos : Nat) : List CharEdit → List Char
  | [] => cs.drop pos
  | e :: es => (cs.take e.start).drop pos ++ e.replacement ++ weave cs e.stop es

namespace Edit

def onChars (cs : List Char) (e : Edit) : CharEdit :=
  ⟨charsBefore cs e.offset, charsBefore cs e.stop, e.replacement.toList⟩

def OnBorders (cs : List Char) (e : Edit) : Prop :=
  IsBorder cs e.offset ∧ IsBorder cs e.stop

theorem encodeChars_weave {cs : List Char} {es : List Edit} {pos : Nat} (hpos : IsBorder cs pos)
    (hes : ∀ e ∈ es, OnBorders cs e) :
    encodeChars (CharEdit.weave cs (charsBefore cs pos) (es.map (onChars cs))) = weave (encodeChars cs) pos es := by
  induction es generalizing pos with
  | nil => exact hpos.drop.symm
  | cons e es ih =>
      obtain ⟨⟨hoffset, hstop⟩, hrest⟩ := List.forall_mem_cons.mp hes
      calc
        encodeChars (CharEdit.weave cs (charsBefore cs pos) ((e :: es).map (onChars cs))) =
            encodeChars ((cs.take (charsBefore cs e.offset)).drop (charsBefore cs pos)) ++
              encodeChars e.replacement.toList ++
              encodeChars (CharEdit.weave cs (charsBefore cs e.stop) (es.map (onChars cs))) := by
          rw [List.map_cons, CharEdit.weave, encodeChars_append, encodeChars_append]
          rfl
        _ = ((encodeChars cs).take e.offset).drop pos ++ encode e.replacement ++ weave (encodeChars cs) e.stop es := by
          rw [hpos.slice hoffset, ih hstop hrest]
          rfl

/-- The whole of what edits between characters do: unless two of them overlap, applying them succeeds and yields the
text cut at the corresponding numbers of characters, with the replacements put in. These numbers are right, for the
octets of the characters before an end of an edit are the octets before it, and the cuts are in order. -/
theorem applyAll_between_characters {edits : List Edit} {text : String}
    (hapart : ∀ a b, applyAll edits text ≠ .error (.overlap a b)) (hborders : ∀ e ∈ edits, OnBorders text.toList e) :
    let cuts := (sorted edits).map (onChars text.toList)
    applyAll edits text = .ok (String.ofList (CharEdit.weave text.toList 0 cuts)) ∧
      (∀ e ∈ edits, (encodeChars (text.toList.take (onChars text.toList e).start)).length = e.offset ∧
        (encodeChars (text.toList.take (onChars text.toList e).stop)).length = e.stop) ∧
      (∀ c ∈ cuts, c.start ≤ c.stop ∧ c.stop ≤ text.toList.length) ∧ cuts.Pairwise fun c c' => c.stop ≤ c'.start := by
  intro cuts
  have hover : ¬ Overlapping (sorted edits) := by
    intro h
    obtain ⟨a, b, hrefused⟩ := (refused_iff_overlapping edits text).mpr h
    exact hapart a b hrefused
  have hsorted : ∀ e ∈ sorted edits, OnBorders text.toList e := fun e he => hborders e (mem_sorted.mp he)
  refine ⟨?_, fun e he => ?_, fun c hc => ?_, ?_⟩
  · have hfit : ∀ e ∈ edits, e.stop ≤ (encode text).length := fun e he => (hborders e he).2.le_length
    have hweave := encodeChars_weave (isBorder_zero text.toList) hsorted
    rw [charsBefore_zero, ← encode_ofList] at hweave
    rw [applyAll, applyOctets_of_fits hover hfit, encode, ← hweave]
    dsimp only
    rw [decode?_encode]
  · exact ⟨(hborders e he).1.length_take, (hborders e he).2.length_take⟩
  · obtain ⟨e, he, rfl⟩ := List.mem_map.mp hc
    exact ⟨charsBefore_mono _ e.offset_le_stop, (hsorted e he).2.charsBefore_le⟩
  · rw [List.pairwise_map]
    exact ((not_overlapping_iff _).mp hover).imp fun hbefore => charsBefore_mono _ hbefore

/-- An insertion at each end, an empty edit, and a character of three octets replaced by one of four. -/
theorem applyAll_between_characters_mixed :
    let text := "é€z"
    let edits : List Edit := [⟨6, 0, "!"⟩, ⟨2, 3, "😀"⟩, ⟨5, 0, ""⟩, ⟨0, 0, "¿"⟩]
    let cuts := (sorted edits).map (onChars text.toList)
    (∀ a b, applyAll edits text ≠ .error (.overlap a b)) ∧ (∀ e ∈ edits, OnBorders text.toList e) ∧
    applyAll edits text = .ok (String.ofList (CharEdit.weave text.toList 0 cuts)) ∧
      (∀ e ∈ edits, (encodeChars (text.toList.take (onChars text.toList e).start)).length = e.offset ∧
        (encodeChars (text.toList.take (onChars text.toList e).stop)).length = e.stop) ∧
      (∀ c ∈ cuts, c.start ≤ c.stop ∧ c.stop ≤ text.toList.length) ∧ cuts.Pairwise fun c c' => c.stop ≤ c'.start := by
  intro text edits cuts
  have hfits : edits.Pairwise Fits := by
    unfold Fits Before
    decide
  have hapart : ∀ a b, applyAll edits text ≠ .error (.overlap a b) := by
    intro a b hrefused
    have hover := (refused_iff_overlapping edits text).mp ⟨a, b, hrefused⟩
    exact (not_overlapping_iff _).mpr ((sorted_pairwise_before_iff edits).mpr hfits) hover
  have hborders : ∀ e ∈ edits, OnBorders text.toList e := by
    unfold OnBorders
    decide +kernel
  exact ⟨hapart, hborders, applyAll_between_characters hapart hborders⟩

end Edit

end Namesake
