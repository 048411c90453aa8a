import Mathlib.Tactic
import Namesake.Proofs.Outcomes
import Namesake.Text.Utf8

/-! Reading octets back. The octets of a character take either reader from between two characters to
between two characters and yield that character, so both readers undo `encode`, and `encode` undoes the strict
one, which accepts nothing but the octets of characters; and an octet position that lies between two
characters cuts the octets of a text into the octets of two texts. -/

namespace Namesake.Text.Utf8

/-- The octets `tail` go on the character `p` and end it as `c`. -/
def Pending.Completes (p : Pending) (c : Char) : Octets → Prop
  | [] => False
  | b :: rest =>
    (p.low ≤ b ∧ b ≤ p.high) ∧
      match p.accept b with
      | .inl d => d = c ∧ rest = []
      | .inr q => q.Completes c rest

theorem toNat_ofNat_of_lt {n : Nat} (h : n < 256) : (UInt8.ofNat n).toNat = n := by
  simp only [UInt8.toNat_ofNat']
  omega

theorem within_ofNat {low high : UInt8} {t : Nat} (ht : t < 64) (hlow : low.toNat ≤ 0x80 + t)
    (hhigh : 0x80 + t ≤ high.toNat) :
    low ≤ UInt8.ofNat (t + 0x80) ∧ UInt8.ofNat (t + 0x80) ≤ high := by
  have hb : (UInt8.ofNat (t + 0x80)).toNat = t + 0x80 := toNat_ofNat_of_lt (by omega)
  rw [UInt8.le_iff_toNat_le, UInt8.le_iff_toNat_le, hb, Nat.add_comm t]
  exact ⟨hlow, hhigh⟩

theorem accept_last (p : Pending) {t : Nat} (ht : t < 64) (hmore : p.more = 0) :
    p.accept (UInt8.ofNat (t + 0x80)) = .inl (Char.ofNat (p.bits * 64 + t)) := by
  have hb : (UInt8.ofNat (t + 0x80)).toNat = t + 0x80 := toNat_ofNat_of_lt (by omega)
  simp only [Pending.accept, hmore, hb, Nat.add_sub_cancel]

theorem accept_more (p : Pending) {t m : Nat} (ht : t < 64) (hmore : p.more = m + 1) :
    p.accept (UInt8.ofNat (t + 0x80)) =
      .inr { p with more := m, low := 0x80, high := 0xBF, bits := p.bits * 64 + t } := by
  have hb : (UInt8.ofNat (t + 0x80)).toNat = t + 0x80 := toNat_ofNat_of_lt (by omega)
  simp only [Pending.accept, hmore, hb, Nat.add_sub_cancel]

theorem completes_of_last (p : Pending) {t : Nat} (ht : t < 64) (hmore : p.more = 0)
    (hlow : p.low.toNat ≤ 0x80 + t) (hhigh : 0x80 + t ≤ p.high.toNat) :
    p.Completes (Char.ofNat (p.bits * 64 + t)) [UInt8.ofNat (t + 0x80)] := by
  refine ⟨within_ofNat ht hlow hhigh, ?_⟩
  rw [accept_last p ht hmore]
  exact ⟨rfl, rfl⟩

theorem completes_of_more (p : Pending) {c : Char} {t m : Nat} {rest : Octets} (ht : t < 64) (hmore : p.more = m + 1)
    (hlow : p.low.toNat ≤ 0x80 + t) (hhigh : 0x80 + t ≤ p.high.toNat)
    (hrest : Pending.Completes { p with more := m, low := 0x80, high := 0xBF, bits := p.bits * 64 + t } c rest) :
    p.Completes c (UInt8.ofNat (t + 0x80) :: rest) := by
  refine ⟨within_ofNat ht hlow hhigh, ?_⟩
  rw [accept_more p ht hmore]
  exact hrest

/-- Beyond its second octet a character takes any octet that goes on one. -/
theorem within_free {t : Nat} (ht : t < 64) : (0x80 : UInt8).toNat ≤ 0x80 + t ∧ 0x80 + t ≤ (0xBF : UInt8).toNat := by
  simp only [UInt8.reduceToNat]
  omega

theorem completes_two (first : UInt8) (start bits : Nat) {t u : Nat} {low high : UInt8} (ht : t < 64) (hu : u < 64)
    (hlow : low.toNat ≤ 0x80 + t) (hhigh : 0x80 + t ≤ high.toNat) :
    Pending.Completes ⟨first, start, 1, low, high, bits⟩ (Char.ofNat ((bits * 64 + t) * 64 + u))
      [UInt8.ofNat (t + 0x80), UInt8.ofNat (u + 0x80)] :=
  completes_of_more _ ht rfl hlow hhigh (completes_of_last _ hu rfl (within_free hu).1 (within_free hu).2)

theorem completes_three (first : UInt8) (start bits : Nat) {t u w : Nat} {low high : UInt8} (ht : t < 64) (hu : u < 64)
    (hw : w < 64) (hlow : low.toNat ≤ 0x80 + t) (hhigh : 0x80 + t ≤ high.toNat) :
    Pending.Completes ⟨first, start, 2, low, high, bits⟩ (Char.ofNat (((bits * 64 + t) * 64 + u) * 64 + w))
      [UInt8.ofNat (t + 0x80), UInt8.ofNat (u + 0x80), UInt8.ofNat (w + 0x80)] :=
  completes_of_more _ ht rfl hlow hhigh (completes_two first start _ hu hw (within_free hu).1 (within_free hu).2)

theorem opening_ofNat {pos x : Nat} (hx : x < 256) :
    opening pos (UInt8.ofNat x) =
      if x < 0x80 then .whole (Char.ofNat x)
      else if x < 0xC2 then .invalid
      else if x < 0xE0 then .begins ⟨UInt8.ofNat x, pos, 0, 0x80, 0xBF, x - 0xC0⟩
      else if x = 0xE0 then .begins ⟨UInt8.ofNat x, pos, 1, 0xA0, 0xBF, x - 0xE0⟩
      else if x = 0xED then .begins ⟨UInt8.ofNat x, pos, 1, 0x80, 0x9F, x - 0xE0⟩
      else if x < 0xF0 then .begins ⟨UInt8.ofNat x, pos, 1, 0x80, 0xBF, x - 0xE0⟩
      else if x = 0xF0 then .begins ⟨UInt8.ofNat x, pos, 2, 0x90, 0xBF, x - 0xF0⟩
      else if x < 0xF4 then .begins ⟨UInt8.ofNat x, pos, 2, 0x80, 0xBF, x - 0xF0⟩
      else if x = 0xF4 then .begins ⟨UInt8.ofNat x, pos, 2, 0x80, 0x8F, x - 0xF0⟩
      else .invalid := by
  have hb := toNat_ofNat_of_lt hx
  simp only [opening, UInt8.lt_iff_toNat_lt, ← UInt8.toNat_inj, hb, UInt8.reduceToNat]

/-- An octet is a character, begins one of two, three or four octets, or is ill-formed. The bounds of the second octet
leave out what a shorter character spells, the surrogates and what is past the last plane. -/
theorem opening_cases (pos : Nat) (b : UInt8) :
    (b.toNat < 0x80 ∧ opening pos b = .whole (Char.ofNat b.toNat)) ∨
    opening pos b = .invalid ∨
    ((0xC2 ≤ b.toNat ∧ b.toNat < 0xE0) ∧ opening pos b = .begins ⟨b, pos, 0, 0x80, 0xBF, b.toNat - 0xC0⟩) ∨
    (∃ low high, (0xE0 ≤ b.toNat ∧ b.toNat < 0xF0) ∧ (0x80 ≤ low.toNat ∧ high.toNat ≤ 0xBF) ∧
      (b.toNat = 0xE0 → 0xA0 ≤ low.toNat) ∧ (b.toNat = 0xED → high.toNat ≤ 0x9F) ∧
      opening pos b = .begins ⟨b, pos, 1, low, high, b.toNat - 0xE0⟩) ∨
    (∃ low high, (0xF0 ≤ b.toNat ∧ b.toNat ≤ 0xF4) ∧ (0x80 ≤ low.toNat ∧ high.toNat ≤ 0xBF) ∧
      (b.toNat = 0xF0 → 0x90 ≤ low.toNat) ∧ (b.toNat = 0xF4 → high.toNat ≤ 0x8F) ∧
      opening pos b = .begins ⟨b, pos, 2, low, high, b.toNat - 0xF0⟩) := by
  have h := @opening_ofNat pos b.toNat b.toNat_lt
  rw [UInt8.ofNat_toNat] at h
  by_cases hwhole : b.toNat < 0x80
  · rw [if_pos hwhole] at h
    exact .inl ⟨hwhole, h⟩
  by_cases hrest : b.toNat < 0xC2
  · rw [if_neg hwhole, if_pos hrest] at h
    exact .inr (.inl h)
  rw [if_neg hwhole, if_neg hrest] at h
  by_cases htwo : b.toNat < 0xE0
  · rw [if_pos htwo] at h
    exact .inr (.inr (.inl ⟨⟨by omega, htwo⟩, h⟩))
  rw [if_neg htwo] at h
  by_cases hthree : b.toNat < 0xF0
  · refine .inr (.inr (.inr (.inl ?_)))
    by_cases hfirst : b.toNat = 0xE0
    · rw [if_pos hfirst] at h
      exact ⟨0xA0, 0xBF, by omega, by decide, fun _ => by decide, by omega, h⟩
    by_cases hgap : b.toNat = 0xED
    · rw [if_neg hfirst, if_pos hgap] at h
      exact ⟨0x80, 0x9F, by omega, by decide, by omega, fun _ => by decide, h⟩
    rw [if_neg hfirst, if_neg hgap, if_pos hthree] at h
    exact ⟨0x80, 0xBF, by omega, by decide, by omega, by omega, h⟩
  rw [if_neg (by omega), if_neg (by omega), if_neg hthree] at h
  by_cases hfirst : b.toNat = 0xF0
  · rw [if_pos hfirst] at h
    exact .inr (.inr (.inr (.inr ⟨0x90, 0xBF, by omega, by decide, fun _ => by decide, by omega, h⟩)))
  by_cases hfour : b.toNat < 0xF4
  · rw [if_neg hfirst, if_pos hfour] at h
    exact .inr (.inr (.inr (.inr ⟨0x80, 0xBF, by omega, by decide, by omega, by omega, h⟩)))
  rw [if_neg hfirst, if_neg hfour] at h
  by_cases hlast : b.toNat = 0xF4
  · rw [if_pos hlast] at h
    exact .inr (.inr (.inr (.inr ⟨0x80, 0x8F, by omega, by decide, by omega, fun _ => by decide, h⟩)))
  · rw [if_neg hlast] at h
    exact .inr (.inl h)

/-- The first octet of a character is whole or begins what the others complete. -/
theorem opening_encodeChar (pos : Nat) (c : Char) :
    ∃ b tail, String.utf8EncodeChar c = b :: tail ∧
      (opening pos b = .whole c ∧ tail = [] ∨ ∃ p, opening pos b = .begins p ∧ p.Completes c tail) := by
  have hvalid : c.toNat < 0xd800 ∨ 0xdfff < c.toNat ∧ c.toNat < 0x110000 := c.valid
  have hof : Char.ofNat c.toNat = c := Char.ofNat_toNat c
  have hval : c.val.toNat = c.toNat := rfl
  unfold String.utf8EncodeChar
  rw [hval]
  generalize c.toNat = v at *
  dsimp only
  split_ifs with hone htwo hthree
  · exact ⟨_, _, rfl, .inl ⟨by rw [opening_ofNat (by omega), if_pos (by omega), hof], rfl⟩⟩
  · refine ⟨_, _, rfl, .inr ⟨_, by
      rw [opening_ofNat (by omega), if_neg (by omega), if_neg (by omega), if_pos (by omega)], ?_⟩⟩
    have hv : v = (v / 64 % 32 + 192 - 192) * 64 + v % 64 := by omega
    have hu : v % 64 < 64 := Nat.mod_lt v (by decide)
    rw [← hof, congrArg Char.ofNat hv]
    exact completes_of_last _ hu rfl (within_free hu).1 (within_free hu).2
  · have hv : v = ((v / 4096 % 16 + 224 - 224) * 64 + v / 64 % 64) * 64 + v % 64 := by omega
    refine ⟨_, _, rfl, .inr ?_⟩
    rw [opening_ofNat (by omega), if_neg (by omega), if_neg (by omega), if_neg (by omega), ← hof]
    -- the table has a row for the first octet of the overlong forms and one for that of the surrogates
    split_ifs <;> try omega
    all_goals
      refine ⟨_, rfl, ?_⟩
      rw [congrArg Char.ofNat hv]
      refine completes_two _ _ _ (by omega) (by omega) ?_ ?_ <;> simp only [UInt8.reduceToNat] <;> omega
  · have hv : v = (((v / 262144 % 8 + 240 - 240) * 64 + v / 4096 % 64) * 64 + v / 64 % 64) * 64 + v % 64 := by omega
    refine ⟨_, _, rfl, .inr ?_⟩
    rw [opening_ofNat (by omega), if_neg (by omega), if_neg (by omega), if_neg (by omega), if_neg (by omega),
      if_neg (by omega), if_neg (by omega), ← hof]
    -- here the rows are those of the overlong forms, of the last plane, and of what lies between them
    split_ifs <;> try omega
    all_goals
      refine ⟨_, rfl, ?_⟩
      rw [congrArg Char.ofNat hv]
      refine completes_three _ _ _ (by omega) (by omega) (by omega) ?_ ?_ <;> simp only [UInt8.reduceToNat] <;> omega

theorem decodeFrom_completes {c : Char} {tail : Octets} (rest : Octets) (pos : Nat) (p : Pending)
    (h : p.Completes c tail) :
    decodeFrom pos (some p) (tail ++ rest) = (decodeFrom (pos + tail.length) none rest).map (c :: ·) := by
  induction tail generalizing p pos with
  | nil => exact h.elim
  | cons b tail ih =>
      obtain ⟨hb, hacc⟩ := h
      simp only [List.cons_append, decodeFrom, if_pos hb]
      cases ha : p.accept b with
      | inl d =>
          rw [ha] at hacc
          obtain ⟨rfl, rfl⟩ := hacc
          rfl
      | inr q =>
          rw [ha] at hacc
          dsimp only
          rw [ih (pos + 1) q hacc, List.length_cons, Nat.add_assoc, Nat.add_comm 1]

theorem decodeLossyFrom_completes {c : Char} {tail : Octets} (rest : Octets) (p : Pending)
    (h : p.Completes c tail) :
    decodeLossyFrom (some p) (tail ++ rest) = c :: decodeLossyFrom none rest := by
  induction tail generalizing p with
  | nil => exact h.elim
  | cons b tail ih =>
      obtain ⟨hb, hacc⟩ := h
      simp only [List.cons_append, decodeLossyFrom, if_pos hb]
      cases ha : p.accept b with
      | inl d =>
          rw [ha] at hacc
          obtain ⟨rfl, rfl⟩ := hacc
          rfl
      | inr q =>
          rw [ha] at hacc
          exact ih q hacc

theorem decodeFrom_encodeChars (cs : List Char) (pos : Nat) : decodeFrom pos none (encodeChars cs) = .ok cs := by
  induction cs generalizing pos with
  | nil => rfl
  | cons c cs ih =>
      obtain ⟨b, tail, henc, ⟨hwhole, rfl⟩ | ⟨p, hbegins, hp⟩⟩ := opening_encodeChar pos c
      · simp only [encodeChars, List.flatMap_cons, henc, List.cons_append, List.nil_append, decodeFrom, hwhole]
        rw [← encodeChars, ih]
        rfl
      · simp only [encodeChars, List.flatMap_cons, henc, List.cons_append, decodeFrom, hbegins]
        rw [← encodeChars, decodeFrom_completes _ _ _ hp, ih]
        rfl

theorem decodeLossyFrom_encodeChars (cs : List Char) : decodeLossyFrom none (encodeChars cs) = cs := by
  induction cs with
  | nil => rfl
  | cons c cs ih =>
      obtain ⟨b, tail, henc, ⟨hwhole, rfl⟩ | ⟨p, hbegins, hp⟩⟩ := opening_encodeChar 0 c
      · simp only [encodeChars, List.flatMap_cons, henc, List.cons_append, List.nil_append, decodeLossyFrom, hwhole]
        rw [← encodeChars, ih]
      · simp only [encodeChars, List.flatMap_cons, henc, List.cons_append, decodeLossyFrom, hbegins]
        rw [← encodeChars, decodeLossyFrom_completes _ _ hp, ih]

@[simp] theorem decode?_encode (s : String) : decode? (encode s) = .ok s := by
  rw [decode?, encode, decodeFrom_encodeChars]
  exact congrArg Except.ok String.ofList_toList

theorem decodeLossy_encodeChars (cs : List Char) : decodeLossy (encodeChars cs) = String.ofList cs := by
  rw [decodeLossy, decodeLossyFrom_encodeChars]

theorem encode_ofList (cs : List Char) : encode (String.ofList cs) = encodeChars cs := by
  rw [encode, String.toList_ofList]

theorem encode_injective : Function.Injective encode := by
  intro s s' h
  have hs := decode?_encode s
  rw [h, decode?_encode] at hs
  exact (Except.ok.inj hs).symm

theorem length_encode (s : String) : (encode s).length = size s := by
  rw [size, ← String.size_toByteArray, ← String.utf8Encode_toList]
  simp only [encode, encodeChars, List.utf8Encode, List.size_toByteArray]

/-! ### Writing back what was read -/

theorem toNat_ofNat_of_valid {v : Nat} (h : v < 0xd800 ∨ 0xdfff < v ∧ v < 0x110000) : (Char.ofNat v).val.toNat = v := by
  rw [Char.ofNat, dif_pos h]
  rfl

theorem encodeChar_two {v : Nat} (hv : 0x7f < v ∧ v ≤ 0x7ff) :
    String.utf8EncodeChar (Char.ofNat v) = [UInt8.ofNat (v / 64 % 32 + 0xC0), UInt8.ofNat (v % 64 + 0x80)] := by
  rw [String.utf8EncodeChar, toNat_ofNat_of_valid (.inl (by omega))]
  rw [if_neg (Nat.not_le.mpr hv.1), if_pos hv.2]

theorem encodeChar_three {v : Nat} (hv : 0x7ff < v ∧ v ≤ 0xffff) (hvalid : v < 0xd800 ∨ 0xdfff < v) :
    String.utf8EncodeChar (Char.ofNat v) =
      [UInt8.ofNat (v / 4096 % 16 + 0xE0), UInt8.ofNat (v / 64 % 64 + 0x80), UInt8.ofNat (v % 64 + 0x80)] := by
  have hlow : ¬ v ≤ 0x7f := by omega
  rw [String.utf8EncodeChar, toNat_ofNat_of_valid (by omega)]
  rw [if_neg hlow, if_neg (Nat.not_le.mpr hv.1), if_pos hv.2]

theorem encodeChar_four {v : Nat} (hv : 0xffff < v ∧ v < 0x110000) :
    String.utf8EncodeChar (Char.ofNat v) =
      [UInt8.ofNat (v / 262144 % 8 + 0xF0), UInt8.ofNat (v / 4096 % 64 + 0x80), UInt8.ofNat (v / 64 % 64 + 0x80),
        UInt8.ofNat (v % 64 + 0x80)] := by
  have hlow : ¬ v ≤ 0x7f := by omega
  have hmid : ¬ v ≤ 0x7ff := by omega
  rw [String.utf8EncodeChar, toNat_ofNat_of_valid (by omega)]
  rw [if_neg hlow, if_neg hmid, if_neg (Nat.not_le.mpr hv.1)]

/-- What ends a character that owes one octet. -/
theorem Pending.Completes.last {p : Pending} {c : Char} {tail : Octets} (h : p.Completes c tail)
    (hmore : p.more = 0) :
    ∃ b, tail = [b] ∧ (p.low.toNat ≤ b.toNat ∧ b.toNat ≤ p.high.toNat) ∧
      c = Char.ofNat (p.bits * 64 + (b.toNat - 0x80)) := by
  cases tail with
  | nil => exact h.elim
  | cons b rest =>
      obtain ⟨⟨hlow, hhigh⟩, hacc⟩ := h
      simp only [Pending.accept, hmore] at hacc
      obtain ⟨rfl, rfl⟩ := hacc
      exact ⟨b, rfl, ⟨UInt8.le_iff_toNat_le.mp hlow, UInt8.le_iff_toNat_le.mp hhigh⟩, rfl⟩

/-- What goes on a character that owes more octets. -/
theorem Pending.Completes.next {p : Pending} {c : Char} {tail : Octets} {m : Nat} (h : p.Completes c tail)
    (hmore : p.more = m + 1) :
    ∃ b rest, tail = b :: rest ∧ (p.low.toNat ≤ b.toNat ∧ b.toNat ≤ p.high.toNat) ∧
      Pending.Completes ⟨p.first, p.start, m, 0x80, 0xBF, p.bits * 64 + (b.toNat - 0x80)⟩ c rest := by
  cases tail with
  | nil => exact h.elim
  | cons b rest =>
      obtain ⟨⟨hlow, hhigh⟩, hacc⟩ := h
      simp only [Pending.accept, hmore] at hacc
      exact ⟨b, rest, rfl, ⟨UInt8.le_iff_toNat_le.mp hlow, UInt8.le_iff_toNat_le.mp hhigh⟩, hacc⟩

theorem ofNat_eq {b : UInt8} {n : Nat} (h : n = b.toNat) : UInt8.ofNat n = b := by
  rw [h, UInt8.ofNat_toNat]

/-- The octets of a character that was begun and ended are its octets. -/
theorem encodeChar_of_completes {pos : Nat} {b : UInt8} {p : Pending} {c : Char} {tail : Octets}
    (hb : opening pos b = .begins p) (h : p.Completes c tail) : String.utf8EncodeChar c = b :: tail := by
  -- The bounds of the first two octets keep the code point in the range of its length.
  rcases opening_cases pos b with ⟨-, hopen⟩ | hopen | ⟨hlead, hopen⟩ |
    ⟨low, high, hlead, hbounds, hlong, hgap, hopen⟩ | ⟨low, high, hlead, hbounds, hlong, hlast, hopen⟩ <;>
    cases hopen.symm.trans hb
  · obtain ⟨b₁, rfl, hb₁, hc⟩ := h.last rfl
    simp only [UInt8.reduceToNat] at hb₁
    have hv : 0x7f < (b.toNat - 0xC0) * 64 + (b₁.toNat - 0x80) ∧
        (b.toNat - 0xC0) * 64 + (b₁.toNat - 0x80) ≤ 0x7ff := by omega
    rw [hc, encodeChar_two hv, ofNat_eq (b := b) (by omega), ofNat_eq (b := b₁) (by omega)]
  · obtain ⟨b₁, rest, rfl, hb₁, h⟩ := h.next rfl
    obtain ⟨b₂, rfl, hb₂, hc⟩ := h.last rfl
    simp only [UInt8.reduceToNat] at hb₁ hb₂
    generalize hv : ((b.toNat - 0xE0) * 64 + (b₁.toNat - 0x80)) * 64 + (b₂.toNat - 0x80) = v
    have hlong : 0x7ff < v ∧ v ≤ 0xffff := by omega
    have hvalid : v < 0xd800 ∨ 0xdfff < v := by omega
    rw [hc, hv, encodeChar_three hlong hvalid, ofNat_eq (b := b) (by omega), ofNat_eq (b := b₁) (by omega),
      ofNat_eq (b := b₂) (by omega)]
  · obtain ⟨b₁, rest, rfl, hb₁, h⟩ := h.next rfl
    obtain ⟨b₂, rest, rfl, hb₂, h⟩ := h.next rfl
    obtain ⟨b₃, rfl, hb₃, hc⟩ := h.last rfl
    simp only [UInt8.reduceToNat] at hb₁ hb₂ hb₃
    generalize hv : (((b.toNat - 0xF0) * 64 + (b₁.toNat - 0x80)) * 64 + (b₂.toNat - 0x80)) * 64 +
      (b₃.toNat - 0x80) = v
    have hlong : 0xffff < v ∧ v < 0x110000 := by omega
    rw [hc, hv, encodeChar_four hlong, ofNat_eq (b := b) (by omega), ofNat_eq (b := b₁) (by omega),
      ofNat_eq (b := b₂) (by omega), ofNat_eq (b := b₃) (by omega)]

theorem encodeChar_of_whole {pos : Nat} {b : UInt8} {c : Char} (h : opening pos b = .whole c) :
    String.utf8EncodeChar c = [b] := by
  rcases opening_cases pos b with ⟨hsmall, hopen⟩ | hopen | ⟨-, hopen⟩ | ⟨_, _, -, -, -, -, hopen⟩ |
    ⟨_, _, -, -, -, -, hopen⟩ <;> cases hopen.symm.trans h
  have hle : b.toNat ≤ 0x7f := by omega
  rw [String.utf8EncodeChar, toNat_ofNat_of_valid (.inl (by omega))]
  rw [if_pos hle, UInt8.ofNat_toNat]

/-- The octets `front` are what was read of the character under way; between two characters there are none. -/
def Under (front : Octets) : Option Pending → Prop
  | none => front = []
  | some p => ∀ c tail, p.Completes c tail → String.utf8EncodeChar c = front ++ tail

theorem Under.begins {pos : Nat} {b : UInt8} {q : Pending} (h : opening pos b = .begins q) : Under [b] (some q) :=
  fun _ _ hq => encodeChar_of_completes h hq

theorem Under.ends {front : Octets} {p : Pending} {b : UInt8} {c : Char} (hp : Under front (some p))
    (hb : p.low ≤ b ∧ b ≤ p.high) (h : p.accept b = .inl c) : String.utf8EncodeChar c = front ++ [b] :=
  hp c [b] ⟨hb, by rw [h]; exact ⟨rfl, rfl⟩⟩

theorem Under.goesOn {front : Octets} {p q : Pending} {b : UInt8} (hp : Under front (some p))
    (hb : p.low ≤ b ∧ b ≤ p.high) (h : p.accept b = .inr q) : Under (front ++ [b]) (some q) := by
  intro c tail hq
  rw [hp c (b :: tail) ⟨hb, by rw [h]; exact hq⟩, List.append_assoc]
  rfl

/-- What a step of the strict reader can do: it ends a character, or it begins or goes on one. -/
theorem decodeFrom_cons {front : Octets} {pos : Nat} {p : Option Pending} {b : UInt8} {rest : Octets} {cs : List Char}
    (hp : Under front p) (h : decodeFrom pos p (b :: rest) = .ok cs) :
    (∃ c cs', String.utf8EncodeChar c = front ++ [b] ∧ decodeFrom (pos + 1) none rest = .ok cs' ∧ cs = c :: cs') ∨
      ∃ q, Under (front ++ [b]) (some q) ∧ decodeFrom (pos + 1) (some q) rest = .ok cs := by
  cases p with
  | none =>
      cases hp
      rw [decodeFrom] at h
      cases hopen : opening pos b with
      | whole c =>
          rw [hopen] at h
          obtain ⟨cs', hdec, hcs⟩ := map_eq_ok_iff.mp h
          exact .inl ⟨c, cs', encodeChar_of_whole hopen, hdec, hcs.symm⟩
      | begins q =>
          rw [hopen] at h
          exact .inr ⟨q, Under.begins hopen, h⟩
      | invalid =>
          rw [hopen] at h
          cases h
  | some p =>
      rw [decodeFrom] at h
      by_cases hb : p.low ≤ b ∧ b ≤ p.high
      · rw [if_pos hb] at h
        cases hacc : p.accept b with
        | inl c =>
            rw [hacc] at h
            obtain ⟨cs', hdec, hcs⟩ := map_eq_ok_iff.mp h
            exact .inl ⟨c, cs', hp.ends hb hacc, hdec, hcs.symm⟩
        | inr q =>
            rw [hacc] at h
            exact .inr ⟨q, hp.goesOn hb hacc, h⟩
      · rw [if_neg hb] at h
        cases h

/-- Reading octets that spell a text yields a text with these octets. -/
theorem encodeChars_of_decodeFrom {rest : Octets} {cs : List Char} (front : Octets) (pos : Nat) (p : Option Pending)
    (hp : Under front p) (h : decodeFrom pos p rest = .ok cs) : encodeChars cs = front ++ rest := by
  induction rest generalizing front pos p cs with
  | nil =>
      cases p with
      | none =>
          cases h
          rw [hp]
          rfl
      | some p => cases h
  | cons b rest ih =>
      obtain ⟨c, cs', hc, hdec, rfl⟩ | ⟨q, hq, hdec⟩ := decodeFrom_cons hp h
      · rw [encodeChars, List.flatMap_cons, ← encodeChars, ih [] (pos + 1) none rfl hdec, hc, List.append_assoc]
        rfl
      · rw [ih (front ++ [b]) (pos + 1) (some q) hq hdec, List.append_assoc]
        rfl

/-- The text that octets spell has these octets. -/
theorem encode_of_decode? {data : Octets} {s : String} (h : decode? data = .ok s) : encode s = data := by
  obtain ⟨cs, hdec, rfl⟩ := map_eq_ok_iff.mp h
  rw [encode_ofList, encodeChars_of_decodeFrom [] 0 none rfl hdec, List.nil_append]

/-! ### Positions between characters -/

/-- The position `n` in the octets of a text lies between two of its characters, or at an end. -/
def IsBorder (cs : List Char) (n : Nat) : Prop :=
  ∃ front back, cs = front ++ back ∧ (encodeChars front).length = n

theorem length_encodeChars_pos {cs : List Char} (h : cs ≠ []) : 0 < (encodeChars cs).length := by
  cases cs with
  | nil => exact absurd rfl h
  | cons c cs =>
      have hc : 0 < c.utf8Size := c.utf8Size_pos
      simp only [encodeChars, List.flatMap_cons, List.length_append, String.length_utf8EncodeChar]
      omega

theorem isBorder_zero (cs : List Char) : IsBorder cs 0 :=
  ⟨[], cs, rfl, rfl⟩

theorem isBorder_length (cs : List Char) : IsBorder cs (encodeChars cs).length :=
  ⟨cs, [], (List.append_nil cs).symm, rfl⟩

theorem IsBorder.le_length {cs : List Char} {n : Nat} (h : IsBorder cs n) : n ≤ (encodeChars cs).length := by
  obtain ⟨front, back, rfl, rfl⟩ := h
  rw [encodeChars_append, List.length_append]
  exact Nat.le_add_right _ _

theorem IsBorder.exists_drop {cs : List Char} {n : Nat} (h : IsBorder cs n) :
    ∃ back, (encodeChars cs).drop n = encodeChars back := by
  obtain ⟨front, back, rfl, rfl⟩ := h
  exact ⟨back, by rw [encodeChars_append, List.drop_left]⟩

instance (cs : List Char) (n : Nat) : Decidable (IsBorder cs n) :=
  decidable_of_iff (∃ front ∈ cs.inits, (encodeChars front).length = n) <| by
    simp only [List.mem_inits, IsBorder]
    constructor
    · rintro ⟨front, ⟨back, rfl⟩, hn⟩
      exact ⟨front, back, rfl, hn⟩
    · rintro ⟨front, back, rfl, hn⟩
      exact ⟨front, ⟨back, rfl⟩, hn⟩

/-- The octets between two borders are those of a text. -/
theorem IsBorder.exists_slice {cs : List Char} {m n : Nat} (hm : IsBorder cs m) (hn : IsBorder cs n) :
    ∃ mid, ((encodeChars cs).take n).drop m = encodeChars mid := by
  obtain ⟨front, back, rfl, rfl⟩ := hm
  obtain ⟨front', back', heq, rfl⟩ := hn
  rw [heq, encodeChars_append, List.take_left]
  rcases List.append_eq_append_iff.mp heq with ⟨as, rfl, -⟩ | ⟨bs, rfl, -⟩
  · exact ⟨as, by rw [encodeChars_append, List.drop_left]⟩
  · refine ⟨[], List.drop_eq_nil_of_le ?_⟩
    rw [encodeChars_append, List.length_append]
    exact Nat.le_add_right _ _

end Namesake.Text.Utf8
