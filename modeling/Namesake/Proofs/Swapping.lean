import Namesake.Proofs.Lookahead

/-! A name of a text gives way to another one. What the scanner has read in front of a name it would have read in
front of any other, as long as the new name does not grow together with what it follows, and the rest is closed and quoted
alike. -/

namespace Namesake.Php.Lexer

/-! ### A step in front of the name -/

/-- It may grow together with a name that follows it. -/
def isTight (c : Char) : Bool :=
  isNamePart c || ['.', '+', '-', '?'].contains c

/-- What stands in front of the names keeps apart from both, or both begin with the letter that nothing grows together with. -/
def Apart (used old new : List Char) : Prop :=
  (∀ c ∈ used.getLast?, isTight c = false) ∨
    (∀ c ∈ old.head?, c = 'n' ∨ c = 'N') ∧ ∀ c ∈ new.head?, c = 'n' ∨ c = 'N'

theorem Apart.of_append {v u old new : List Char} (h : Apart (v ++ u) old new) : Apart u old new := by
  rcases h with h | h
  · cases u with
    | nil => exact .inl (by simp)
    | cons c u => exact .inl fun x hx => h x (by rwa [List.getLast?_append_of_ne_nil _ (List.cons_ne_nil _ _)])
  · exact .inr h

theorem isNamePart_of_isHexPart {c : Char} (h : isHexPart c) : isNamePart c := by
  have hletter (h : c.isUpper = true ∨ c.isLower = true) : isNamePart c := by
    have halpha : c.isAlpha = true := Bool.or_eq_true_iff.mpr h
    rw [isNamePart, isNameStart, halpha, Bool.or_true, Bool.true_or, Bool.true_or]
  simp only [isHexPart, isDigitPart, Bool.or_eq_true, Bool.and_eq_true, decide_eq_true_eq, beq_iff_eq] at h
  rcases h with ((h | rfl) | ⟨hlow, hhigh⟩) | ⟨hlow, hhigh⟩
  · rw [isNamePart, h, Bool.or_true]
  · rfl
  · have hle : c ≤ 'z' := Char.le_trans hhigh (by decide)
    exact hletter (.inr (Bool.and_eq_true_iff.mpr ⟨decide_eq_true hlow, decide_eq_true hle⟩))
  · have hle : c ≤ 'Z' := Char.le_trans hhigh (by decide)
    exact hletter (.inl (decide_eq_true ⟨hlow, hle⟩))

theorem not_isNamePart_of_not_isTight {c : Char} (h : isTight c = false) : isNamePart c = false := by
  rw [isTight, Bool.or_eq_false_iff] at h
  exact h.1

theorem haltsNumber_of_not_isTight {c : Char} (h : isTight c = false) : haltsNumber c := by
  have hhex : isHexPart c = false := by
    by_contra hhex
    rw [Bool.not_eq_false] at hhex
    have hpart := not_isNamePart_of_not_isTight h
    rw [isNamePart_of_isHexPart hhex] at hpart
    cases hpart
  have hmark : numberMarks.contains c = false := by
    by_contra hmark
    rw [Bool.not_eq_false, List.contains_iff_mem] at hmark
    have hall : numberMarks.all isTight = true := by decide
    rw [List.all_eq_true.mp hall c hmark] at h
    cases h
  rw [haltsNumber, hhex, hmark]
  rfl

section

variable {old new back back' : List Char}

theorem numberMore_swap (ho : Named old back) (hn : Named new back') {c : Char} {u : List Char}
    (ha : Apart (c :: u) old new) (hc : c.isDigit ∨ c = '.') :
    numberMore c (u ++ (new ++ back')) = numberMore c (u ++ (old ++ back)) := by
  rcases ha with ha | ha
  · rcases List.eq_nil_or_concat u with rfl | ⟨w, ℓ, rfl⟩
    · have htight : isTight c := by
        rcases hc with hc | rfl
        · simp [isTight, isNamePart, hc]
        · rfl
      rw [ha c rfl] at htight
      cases htight
    · rw [List.concat_eq_append] at ha ⊢
      have hℓ : haltsNumber ℓ := haltsNumber_of_not_isTight (ha ℓ (by rw [← List.cons_append, List.getLast?_concat]; rfl))
      simp only [List.append_assoc, List.singleton_append, numberMore_append hℓ]
  · obtain ⟨y, ys, rfl, -⟩ := ho.exists_cons
    obtain ⟨z, zs, rfl, -⟩ := hn.exists_cons
    have hhalts {x : Char} (hx : x = 'n' ∨ x = 'N') : haltsNumber x := by rcases hx with rfl | rfl <;> decide
    rw [List.cons_append, List.cons_append, numberMore_append (hhalts (ha.1 y rfl)),
      numberMore_append (hhalts (ha.2 z rfl))]

/-- How many characters after the first a tag has that goes on as `rest` after its question mark. -/
def tagMore (rest : List Char) : Nat :=
  if rest.head? = some '=' then 2 else if (rest.take 3).map Char.toLower = ['p', 'h', 'p'] then 4 else 1

theorem outsideStep_tag (m : List Mode) (rest : List Char) :
    outsideStep m '<' ('?' :: rest) = ⟨some .enter, tagMore rest, m.tail⟩ := by
  simp only [outsideStep, tagMore]
  congr 1
  rcases rest with _ | ⟨a, _ | ⟨b, _ | ⟨c, rest⟩⟩⟩
  · rfl
  · by_cases ha : a = '='
    · subst ha; rfl
    · simp [ha]
  · by_cases ha : a = '='
    · subst ha; rfl
    · simp [ha]
  · by_cases ha : a = '='
    · subst ha; rfl
    · simp [ha]

theorem tagMore_eq_one {rest : List Char} {c : Char} (hhead : rest.head? ≠ some '=') (hc : c ∈ rest.take 3)
    (hp : c.toLower ≠ 'p') (hh : c.toLower ≠ 'h') : tagMore rest = 1 := by
  rw [tagMore, if_neg hhead, if_neg]
  intro hphp
  have hmem : c.toLower ∈ ['p', 'h', 'p'] := hphp ▸ List.mem_map_of_mem hc
  simp [hp, hh] at hmem

/-- A character that nothing grows together with settles the tag before the name is reached. -/
theorem tagMore_append_loose {w : List Char} {ℓ : Char} (hℓ : isNamePart ℓ = false) (hlen : (w ++ [ℓ]).length ≤ 3)
    (xs ys : List Char) : tagMore (w ++ [ℓ] ++ xs) = tagMore (w ++ [ℓ] ++ ys) := by
  have hne {d : Char} (hd : isNamePart d) : ℓ ≠ d := by
    rintro rfl
    rw [hd] at hℓ
    cases hℓ
  have hmem (xs : List Char) : ℓ ∈ (w ++ [ℓ] ++ xs).take 3 := by
    rw [List.take_append, List.take_of_length_le hlen]
    simp
  have hhead (xs : List Char) : (w ++ [ℓ] ++ xs).head? = (w ++ [ℓ]).head? := by
    rw [List.head?_append_of_ne_nil _ (by simp)]
  by_cases heq : (w ++ [ℓ]).head? = some '='
  · rw [tagMore, tagMore, hhead, hhead, if_pos heq, if_pos heq]
  · have hone (xs : List Char) : tagMore (w ++ [ℓ] ++ xs) = 1 :=
      tagMore_eq_one (by rwa [hhead]) (hmem xs) (toLower_ne (e := 'P') rfl (hne rfl) (hne rfl))
        (toLower_ne (e := 'H') rfl (hne rfl) (hne rfl))
    rw [hone, hone]

theorem tagMore_append_letter {u : List Char} (hlen : u.length < 3) {x : Char} (hx : x = 'n' ∨ x = 'N') (xs : List Char) :
    tagMore (u ++ x :: xs) = if u.head? = some '=' then 2 else 1 := by
  split
  · rename_i heq
    rw [tagMore, List.head?_append_of_ne_nil _ (by rintro rfl; cases heq), if_pos heq]
  · rename_i heq
    refine tagMore_eq_one (c := x) ?_ ?_ ?_ ?_
    · cases u with
      | nil => rcases hx with rfl | rfl <;> simp
      | cons a u => exact heq
    · rw [List.take_append, List.mem_append]
      right
      rw [List.take_cons (by omega)]
      exact List.mem_cons_self
    · rcases hx with rfl | rfl <;> decide
    · rcases hx with rfl | rfl <;> decide

theorem tagMore_swap (ho : Named old back) (hn : Named new back') {u : List Char} (ha : Apart ('?' :: u) old new) :
    tagMore (u ++ (new ++ back')) = tagMore (u ++ (old ++ back)) := by
  rcases Nat.lt_or_ge u.length 3 with hlen | hlen
  swap
  · obtain ⟨a, b, c, v, rfl⟩ : ∃ a b c v, u = a :: b :: c :: v := by
      match u, hlen with
      | a :: b :: c :: v, _ => exact ⟨a, b, c, v, rfl⟩
    rfl
  rcases ha with ha | ⟨hy, hz⟩
  · rcases List.eq_nil_or_concat u with rfl | ⟨w, ℓ, rfl⟩
    · exact absurd (ha '?' rfl) (by decide)
    rw [List.concat_eq_append] at ha hlen ⊢
    have hℓ : isNamePart ℓ = false :=
      not_isNamePart_of_not_isTight (ha ℓ (by rw [← List.cons_append, List.getLast?_concat]; rfl))
    exact tagMore_append_loose hℓ hlen.le _ _
  · obtain ⟨y, ys, rfl, -⟩ := ho.exists_cons
    obtain ⟨z, zs, rfl, -⟩ := hn.exists_cons
    rw [List.cons_append, List.cons_append, tagMore_append_letter hlen (hy y rfl), tagMore_append_letter hlen (hz z rfl)]

theorem outsideStep_of_ne {c : Char} (hc : c ≠ '<') (m : List Mode) (cs : List Char) :
    outsideStep m c cs = if isBlank c then ⟨none, 0, m⟩ else ⟨some .text, run (· != '<') cs, m⟩ := by
  rw [outsideStep]
  · exact hc
  · rintro _ rfl
    exact absurd rfl hc

theorem outsideStep_swap (ho : Named old back) (hn : Named new back') {m : List Mode} {c : Char} {u : List Char}
    (ha : Apart (c :: u) old new) (hmore : (outsideStep m c (u ++ (old ++ back))).more ≤ u.length) :
    outsideStep m c (u ++ (new ++ back')) = outsideStep m c (u ++ (old ++ back)) := by
  obtain ⟨y, ys, rfl, hy⟩ := ho.exists_cons
  have hy := isNamePart_of_isNameStart hy
  by_cases hc : c = '<'
  · subst hc
    rcases u with _ | ⟨d, u⟩
    · obtain ⟨z, zs, rfl, hz⟩ := hn.exists_cons
      have hz := isNamePart_of_isNameStart hz
      simp [outsideStep, ne_of_isNamePart hy (d := '?') (by decide), ne_of_isNamePart hz (d := '?') (by decide)]
    · by_cases hd : d = '?'
      · subst hd
        simp only [List.cons_append, outsideStep_tag]
        rw [← List.cons_append, tagMore_swap ho hn (ha.of_append (v := ['<']))]
      · simp [outsideStep, hd]
  · rw [outsideStep_of_ne hc] at hmore
    rw [outsideStep_of_ne hc, outsideStep_of_ne hc]
    split at hmore
    · rename_i hblank
      rw [if_pos hblank, if_pos hblank]
    · rename_i hblank
      rw [if_neg hblank, if_neg hblank, run, run]
      rw [run, List.cons_append] at hmore
      rw [List.cons_append, takeWhile_swap (by simpa using ne_of_isNamePart hy (by decide)) hmore]

/-- A sign that is not looked at together with what follows is read alike everywhere. -/
theorem signStep_congr {c : Char} (hc : c ∉ ['$', '\'', '"', '\x60', '<', '#', '/', '?', ':']) (depth : Nat)
    (outer : List Mode) (cs cs' : List Char) : signStep depth outer c cs = signStep depth outer c cs' := by
  simp only [List.mem_cons, List.not_mem_nil, or_false, not_or] at hc
  rw [signStep.eq_def, signStep.eq_def]
  dsimp only
  split <;> simp_all

variable {depth : Nat} {outer : List Mode}

theorem signStep_less_of_ne {cs : List Char} (h : cs.head? ≠ some '<') :
    signStep depth outer '<' cs = ⟨some .operator, 0, .code depth :: outer⟩ := by
  rcases cs with _ | ⟨d, _ | ⟨e, cs⟩⟩
  · simp [signStep]
  · simp [signStep]
  · have hd : d ≠ '<' := by simpa using h
    simp [signStep, hd]

theorem signStep_less_cons_of_ne {cs : List Char} {d : Char} (h : cs.head? ≠ some '<') :
    signStep depth outer '<' (d :: cs) = ⟨some .operator, 0, .code depth :: outer⟩ := by
  rcases cs with _ | ⟨e, cs⟩
  · simp [signStep]
  · have he : e ≠ '<' := by simpa using h
    simp [signStep, he]

theorem signStep_dollar (ho : Named old back) (xs : List Char) {u : List Char}
    (hmore : (signStep depth outer '$' (u ++ (old ++ back))).more ≤ u.length) :
    signStep depth outer '$' (u ++ xs) = signStep depth outer '$' (u ++ (old ++ back)) := by
  obtain ⟨y, ys, rfl, hy⟩ := ho.exists_cons
  rcases u with _ | ⟨d, u⟩
  · simp [signStep, hy, run, isNamePart_of_isNameStart hy] at hmore
  · by_cases hd : isNameStart d
    · simp only [List.cons_append, signStep, hd, if_true] at hmore ⊢
      have htake := takeWhile_swap (isNamePart_of_isNameStart hy) (u := d :: u) hmore xs
      rw [List.cons_append, List.cons_append] at htake
      rw [run, run, htake]
    · simp [signStep, hd]

theorem signStep_less (ho : Named old back) (hn : Named new back') (hf : Follows back back') {u : List Char}
    (hmore : (signStep depth outer '<' (u ++ (old ++ back))).more ≤ u.length) :
    signStep depth outer '<' (u ++ (new ++ back')) = signStep depth outer '<' (u ++ (old ++ back)) := by
  have hhead {name b : List Char} (hname : Named name b) : (name ++ b).head? ≠ some '<' := by
    obtain ⟨y, ys, rfl, hy⟩ := hname.exists_cons
    simpa using ne_of_isNamePart (isNamePart_of_isNameStart hy) (d := '<') (by decide)
  rcases u with _ | ⟨d, _ | ⟨e, u⟩⟩
  · simp only [List.nil_append]
    rw [signStep_less_of_ne (hhead ho), signStep_less_of_ne (hhead hn)]
  · simp only [List.cons_append, List.nil_append]
    rw [signStep_less_cons_of_ne (hhead ho), signStep_less_cons_of_ne (hhead hn)]
  by_cases hde : d = '<' ∧ e = '<'
  swap
  · rw [not_and_or] at hde
    rcases hde with hd | he
    · simp [signStep, hd]
    · simp [signStep, he]
  obtain ⟨rfl, rfl⟩ := hde
  simp only [List.cons_append, signStep] at hmore ⊢
  cases hh : heading? (u ++ (old ++ back)) with
  | none => rw [heading?_swap ho hn hf (by simp [hh]), hh]
  | some h =>
      rw [hh] at hmore
      dsimp only at hmore
      have hlen : h.length ≤ u.length := by
        split at hmore <;> simp only [List.length_cons] at hmore <;> omega
      rw [heading?_swap ho hn hf (fun hd hhd => by rw [hh] at hhd; cases hhd; exact hlen), hh]
      dsimp only
      split
      · rename_i hraw
        rw [if_pos hraw] at hmore
        have hdrop (xs : List Char) : ('<' :: '<' :: (u ++ xs)).drop (2 + h.length) = u.drop h.length ++ xs := by
          rw [Nat.add_comm, List.drop_succ_cons, List.drop_succ_cons, List.drop_append_of_le_length hlen]
        rw [hdrop] at hmore
        rw [hdrop, hdrop]
        obtain ⟨y, ys, rfl, hy⟩ := ho.exists_cons
        rw [List.cons_append, rawDocument_swap (label_of_heading? hh) (isNamePart_of_isNameStart hy)]
        simp only [List.length_cons, List.cons_append] at hmore
        rw [List.length_drop]
        omega
      · rfl

theorem signStep_hash (ho : Named old back) (hn : Named new back') {u : List Char}
    (hmore : (signStep depth outer '#' (u ++ (old ++ back))).more ≤ u.length) :
    signStep depth outer '#' (u ++ (new ++ back')) = signStep depth outer '#' (u ++ (old ++ back)) := by
  obtain ⟨y, ys, rfl, hy⟩ := ho.exists_cons
  obtain ⟨z, zs, rfl, hz⟩ := hn.exists_cons
  have hy := isNamePart_of_isNameStart hy
  have hz := isNamePart_of_isNameStart hz
  have hline {d : Char} {cs : List Char} (hd : d ≠ '[' ∧ d ≠ '?') :
      signStep depth outer '#' (d :: cs) = ⟨some (.comment false), (lineComment 0 (d :: cs)).1, .code depth :: outer⟩ := by
    simp [signStep, hd.1, hd.2]
  rcases u with _ | ⟨d, u⟩
  · have hym : y ≠ '[' ∧ y ≠ '?' := ⟨ne_of_isNamePart hy (by decide), ne_of_isNamePart hy (by decide)⟩
    have hzm : z ≠ '[' ∧ z ≠ '?' := ⟨ne_of_isNamePart hz (by decide), ne_of_isNamePart hz (by decide)⟩
    simp only [List.nil_append, List.cons_append, hline hym] at hmore
    have hswap := @lineComment_swap 0 [] _ (zs ++ back') _ _ hy hz (by simpa using hmore)
    simp only [List.nil_append, List.cons_append] at hswap ⊢
    rw [hline hym, hline hzm, hswap]
  by_cases hd : d ≠ '[' ∧ d ≠ '?'
  · simp only [List.cons_append, hline hd] at hmore
    have hswap := @lineComment_swap 0 (d :: u) _ (zs ++ back') _ _ hy hz (by simpa using hmore)
    simp only [List.cons_append] at hswap ⊢
    rw [hline hd, hline hd, hswap]
  · rw [not_and_or, not_ne_iff, not_ne_iff] at hd
    rcases hd with rfl | rfl <;> rfl

theorem signStep_slash (ho : Named old back) (hn : Named new back')
    (hblock : ¬ ['*', '/'] <:+: back → ¬ ['*', '/'] <:+: back') {u : List Char}
    (hmore : (signStep depth outer '/' (u ++ (old ++ back))).more ≤ u.length) :
    signStep depth outer '/' (u ++ (new ++ back')) = signStep depth outer '/' (u ++ (old ++ back)) := by
  have hother {d : Char} {cs : List Char} (hd : d ≠ '/' ∧ d ≠ '*') :
      signStep depth outer '/' (d :: cs) = ⟨some .operator, 0, .code depth :: outer⟩ := by
    simp [signStep, hd.1, hd.2]
  rcases u with _ | ⟨d, u⟩
  · have hname {name b : List Char} (hname : Named name b) :
        signStep depth outer '/' (name ++ b) = ⟨some .operator, 0, .code depth :: outer⟩ := by
      obtain ⟨y, ys, rfl, hy⟩ := hname.exists_cons
      have hy := isNamePart_of_isNameStart hy
      exact hother ⟨ne_of_isNamePart hy (by decide), ne_of_isNamePart hy (by decide)⟩
    rw [List.nil_append, List.nil_append, hname ho, hname hn]
  by_cases hd : d ≠ '/' ∧ d ≠ '*'
  · rw [List.cons_append, List.cons_append, hother hd, hother hd]
  rw [not_and_or, not_ne_iff, not_ne_iff] at hd
  rcases hd with rfl | rfl
  · obtain ⟨y, ys, rfl, hy⟩ := ho.exists_cons
    obtain ⟨z, zs, rfl, hz⟩ := hn.exists_cons
    simp only [List.cons_append, signStep, List.length_cons] at hmore ⊢
    have hle : (lineComment 1 (u ++ y :: (ys ++ back))).1 ≤ 1 + u.length := by omega
    rw [lineComment_swap (isNamePart_of_isNameStart hy) (isNamePart_of_isNameStart hz) hle]
  · simp only [List.cons_append, signStep] at hmore ⊢
    cases hk : blockComment 1 (u ++ (old ++ back)) with
    | some k =>
        rw [hk] at hmore
        simp only [List.length_cons] at hmore
        obtain ⟨y, ys, rfl, hy⟩ := ho.exists_cons
        rw [blockComment_swap (isNamePart_of_isNameStart hy) _ hk (by omega)]
    | none =>
        have hnone : blockComment 1 (u ++ (new ++ back')) = none := by
          rw [blockComment_eq_none_iff, endMark_append_name ho.ne_nil ho.part, not_or] at hk
          rw [blockComment_eq_none_iff, endMark_append_name hn.ne_nil hn.part, not_or]
          exact ⟨hk.1, hblock hk.2⟩
        rw [hnone]

theorem signStep_swap (ho : Named old back) (hn : Named new back') (hf : Follows back back')
    (hblock : ¬ ['*', '/'] <:+: back → ¬ ['*', '/'] <:+: back') {c : Char} {u : List Char}
    (hquote : c ∈ ['"', '\x60'] → isClosed c (u ++ (new ++ back')) = isClosed c (u ++ (old ++ back)))
    (hmore : (signStep depth outer c (u ++ (old ++ back))).more ≤ u.length) :
    signStep depth outer c (u ++ (new ++ back')) = signStep depth outer c (u ++ (old ++ back)) := by
  by_cases hc : c ∈ ['$', '\'', '"', '\x60', '<', '#', '/', '?', ':']
  swap
  · exact signStep_congr hc depth outer _ _
  simp only [List.mem_cons, List.not_mem_nil, or_false] at hc
  rcases hc with rfl | rfl | rfl | rfl | rfl | rfl | rfl | rfl | rfl
  · exact signStep_dollar ho _ hmore
  · obtain ⟨y, ys, rfl, hy⟩ := ho.exists_cons
    have hswap := singleQuoted_swap (n := 0) (u := u) (isNamePart_of_isNameStart hy) (new ++ back')
      (by simpa [signStep] using hmore)
    simp only [signStep, hswap, List.cons_append]
  · simp [signStep, hquote]
  · simp [signStep, hquote]
  · exact signStep_less ho hn hf hmore
  · exact signStep_hash ho hn hmore
  · exact signStep_slash ho hn hblock hmore
  · rcases u with _ | ⟨d, u⟩
    · have hname {name b : List Char} (hname : Named name b) :
          signStep depth outer '?' (name ++ b) = ⟨some .operator, 0, .code depth :: outer⟩ := by
        obtain ⟨y, ys, rfl, hy⟩ := hname.exists_cons
        simp [signStep, ne_of_isNamePart (isNamePart_of_isNameStart hy) (d := '>') (by decide)]
      rw [List.nil_append, List.nil_append, hname ho, hname hn]
    · by_cases hd : d = '>' <;> simp [signStep, hd]
  · rcases u with _ | ⟨d, u⟩
    · have hname {name b : List Char} (hname : Named name b) :
          signStep depth outer ':' (name ++ b) = ⟨some .colon, 0, .code depth :: outer⟩ := by
        obtain ⟨y, ys, rfl, hy⟩ := hname.exists_cons
        simp [signStep, ne_of_isNamePart (isNamePart_of_isNameStart hy) (d := ':') (by decide)]
      rw [List.nil_append, List.nil_append, hname ho, hname hn]
    · by_cases hd : d = ':' <;> simp [signStep, hd]

theorem codeStep_swap (ho : Named old back) (hn : Named new back') (hf : Follows back back')
    (hblock : ¬ ['*', '/'] <:+: back → ¬ ['*', '/'] <:+: back') {c : Char} {u : List Char}
    (ha : Apart (c :: u) old new)
    (hquote : c ∈ ['"', '\x60'] → isClosed c (u ++ (new ++ back')) = isClosed c (u ++ (old ++ back)))
    (hmore : (codeStep depth outer c (u ++ (old ++ back))).more ≤ u.length) :
    codeStep depth outer c (u ++ (new ++ back')) = codeStep depth outer c (u ++ (old ++ back)) := by
  have hdigit : (u ++ (new ++ back')).head?.any Char.isDigit = (u ++ (old ++ back)).head?.any Char.isDigit := by
    obtain ⟨y, ys, rfl, hy⟩ := ho.exists_cons
    obtain ⟨z, zs, rfl, hz⟩ := hn.exists_cons
    cases u with
    | nil => simp [isDigit_eq_false_of_isNameStart hy, isDigit_eq_false_of_isNameStart hz]
    | cons d u => rfl
  simp only [codeStep, hdigit] at hmore ⊢
  split
  · rfl
  rename_i hblank
  rw [if_neg hblank] at hmore
  split
  · rename_i hname
    rw [if_pos hname] at hmore
    have hswap : (u ++ (new ++ back')).takeWhile isNamePart = (u ++ (old ++ back)).takeWhile isNamePart := by
      obtain ⟨y, ys, rfl, hy⟩ := ho.exists_cons
      exact takeWhile_swap (isNamePart_of_isNameStart hy) hmore _
    rw [hswap]
  rename_i hname
  rw [if_neg hname] at hmore
  split
  · rename_i hnumber
    have hc : c.isDigit ∨ c = '.' := by
      simp only [Bool.or_eq_true, Bool.and_eq_true, beq_iff_eq] at hnumber
      exact hnumber.imp_right And.left
    rw [numberMore_swap ho hn ha hc]
  · rename_i hnumber
    rw [if_neg hnumber] at hmore
    exact signStep_swap ho hn hf hblock hquote hmore

/-- There is something in front of the name that is neither a blank nor a part of a name. -/
def Odd (u : List Char) : Prop :=
  ∃ c ∈ u, isNamePart c = false ∧ isInset c = false

theorem insertionStep?_swap (ho : Named old back) (hn : Named new back') (m : List Mode) (c : Char) (u : List Char) :
    insertionStep? m c (u ++ (new ++ back')) = insertionStep? m c (u ++ (old ++ back)) := by
  rcases u with _ | ⟨d, u⟩
  · have hname {name b : List Char} (hname : Named name b) : insertionStep? m c (name ++ b) = none := by
      obtain ⟨y, ys, rfl, hy⟩ := hname.exists_cons
      have hy := isNamePart_of_isNameStart hy
      simp [insertionStep?, ne_of_isNamePart hy (d := '$') (by decide), ne_of_isNamePart hy (d := '{') (by decide)]
    rw [List.nil_append, List.nil_append, hname ho, hname hn]
  · simp only [List.cons_append, insertionStep?]
    split <;> simp_all

theorem quotedStep_swap (ho : Named old back) (hn : Named new back') (m : List Mode) (q c : Char) (u : List Char) :
    quotedStep q m c (u ++ (new ++ back')) = quotedStep q m c (u ++ (old ++ back)) := by
  rw [quotedStep, quotedStep, insertionStep?_swap ho hn]

theorem endLine?_swap (ho : Named old back) {label u : List Char} (hlabel : ∀ c ∈ label, isNamePart c)
    (hodd : endLine? label (u ++ (old ++ back)) = none → Odd u)
    (hmore : ∀ k, endLine? label (u ++ (old ++ back)) = some k → k ≤ u.length) (xs : List Char) :
    endLine? label (u ++ xs) = endLine? label (u ++ (old ++ back)) := by
  by_cases hpart : ∃ d ∈ u.dropWhile isInset, isNamePart d = false
  · rw [endLine?_append hlabel hpart, endLine?_append hlabel hpart]
  exfalso
  have hall : ∀ d ∈ u.dropWhile isInset, isNamePart d := by simpa using hpart
  cases he : endLine? label (u ++ (old ++ back)) with
  | some k =>
      have hle := hmore k he
      obtain ⟨y, ys, rfl, hy⟩ := ho.exists_cons
      exact absurd (length_lt_of_endLine? (isNamePart_of_isNameStart hy) hall he) (Nat.not_lt_of_le hle)
  | none =>
      obtain ⟨d, hd, hnot, hin⟩ := hodd he
      rw [← List.takeWhile_append_dropWhile (p := isInset) (l := u)] at hd
      rcases List.mem_append.mp hd with hd | hd
      · rw [List.mem_takeWhile_imp hd] at hin
        cases hin
      · exact hpart ⟨d, hd, hnot⟩

theorem documentStep_swap (ho : Named old back) (hn : Named new back') {m : List Mode} {label : List Char}
    (hlabel : ∀ c ∈ label, isNamePart c) {c : Char} {u : List Char}
    (hodd : isLineEnd c → endLine? label (u ++ (old ++ back)) = none → Odd u)
    (hmore : (documentStep label m c (u ++ (old ++ back))).more ≤ u.length) :
    documentStep label m c (u ++ (new ++ back')) = documentStep label m c (u ++ (old ++ back)) := by
  rw [documentStep] at hmore
  rw [documentStep, documentStep]
  split
  · rename_i hend
    rw [if_pos hend] at hmore
    rw [endLine?_swap ho hlabel (hodd hend) (fun k hk => by rw [hk] at hmore; exact hmore)]
  rename_i hend
  rw [if_neg hend] at hmore
  split
  · rename_i hback
    rw [if_pos hback] at hmore
    have hne : u ≠ [] := by
      rintro rfl
      obtain ⟨y, ys, rfl, hy⟩ := ho.exists_cons
      simp [isLineEnd_eq_false (isNamePart_of_isNameStart hy)] at hmore
    rw [List.head?_append_of_ne_nil _ hne, List.head?_append_of_ne_nil _ hne]
  · rw [insertionStep?_swap ho hn]

/-! ### A run in front of the name -/

theorem Odd.append {u : List Char} (h : Odd u) (w : List Char) : Odd (w ++ u) := by
  obtain ⟨c, hc, hodd⟩ := h
  exact ⟨c, List.mem_append_right _ hc, hodd⟩

theorem odd_of_mem_marks {c : Char} (hc : c ∈ marks) (hin : isInset c = false) (u : List Char) : Odd (c :: u) :=
  ⟨c, List.mem_cons_self, not_isNameStart_of_mem_marks hc, hin⟩

/-- Before the scanner comes from a here-document into code it has met the end of a line or the begin of code. -/
theorem Reads.odd {rest : List Char} {d : Nat} {outer m : List Mode} {n : Nat} {used : List Char} {ts : List Token}
    (h : Reads rest (.code d :: outer) m n used ts) {label : List Char} {t : List Mode} (hm : m = .document label :: t) :
    Odd used := by
  induction h with
  | nil => cases hm
  | @cons m n c w u ts hmore _ ih =>
      subst hm
      cases documentStep_turn label (.document label :: t) c (w ++ (u ++ rest)) with
      | goesOn _ _ hm => exact (ih hm).append (c :: w)
      | ends he _ _ =>
          simp only [isLineEnd, Bool.or_eq_true, beq_iff_eq] at he
          rcases he with rfl | rfl
          · exact odd_of_mem_marks (by decide) (by decide) _
          · exact odd_of_mem_marks (by decide) (by decide) _
      | inserts hc _ _ =>
          rcases hc with ⟨rfl, -⟩ | ⟨rfl, -, -⟩
          · exact odd_of_mem_marks (by decide) (by decide) _
          · exact odd_of_mem_marks (by decide) (by decide) _

theorem codeStep_quote {q : Char} (hq : q ∈ ['"', '\x60']) {cs : List Char} (h : isClosed q cs) :
    codeStep depth outer q cs = ⟨some .quote, 0, .quoted q :: .code depth :: outer⟩ := by
  simp only [List.mem_cons, List.not_mem_nil, or_false] at hq
  rcases hq with rfl | rfl
  · simp [codeStep, signStep, h, isBlank, isGap, isNameStart]
  · simp [codeStep, signStep, h, isBlank, isGap, isNameStart]

theorem isClosed_swap (ho : Named old back) (hn : Named new back') {q : Char} (hq : q ∈ ['"', '\x60'])
    (hclosed : isClosed q back = false → isClosed q back' = false) {u : List Char}
    (hopen : isClosed q back → isClosed q u ∨ isClosed q back') :
    isClosed q (u ++ (new ++ back')) = isClosed q (u ++ (old ++ back)) := by
  rw [isClosed_append_name hq hn.ne_nil hn.part, isClosed_append_name hq ho.ne_nil ho.part]
  cases hb : isClosed q back with
  | false => rw [hclosed hb]
  | true =>
      rcases hopen hb with hu | hb'
      · rw [hu, Bool.true_or, Bool.true_or]
      · rw [hb']

/-- What the scanner has read in front of a name in code it would have read in front of another name. -/
theorem Reads.swap (ho : Named old back) (hn : Named new back') (hf : Follows back back')
    (hblock : ¬ ['*', '/'] <:+: back → ¬ ['*', '/'] <:+: back')
    (hclosed : ∀ q ∈ ['"', '\x60'], isClosed q back = false → isClosed q back' = false)
    (hopen : outer = [] ∨ ∀ q ∈ ['"', '\x60'], isClosed q back → isClosed q back')
    {m : List Mode} {n : Nat} {used : List Char} {ts : List Token} (hl : Labelled m) (ha : Apart used old new)
    (h : Reads (old ++ back) (.code depth :: outer) m n used ts) :
    Reads (new ++ back') (.code depth :: outer) m n used ts := by
  -- Each step reads alike in front of either name, because it does not reach beyond what was read; the one that looks
  -- further ahead is that for a quotation mark.
  induction h with
  | nil => exact .nil
  | @cons m n c w u ts hmore hback ih =>
      have hstep : step m c (w ++ u ++ (new ++ back')) = step m c (w ++ u ++ (old ++ back)) := by
        have hcs : w ++ (u ++ (old ++ back)) = w ++ u ++ (old ++ back) := (List.append_assoc _ _ _).symm
        rw [hcs] at hmore hback
        have hle : (step m c (w ++ u ++ (old ++ back))).more ≤ (w ++ u).length := by
          rw [hmore, List.length_append]
          exact Nat.le_add_right _ _
        have hcode (e : Nat) (o : List Mode) (hm : step m c (w ++ u ++ (old ++ back)) = codeStep e o c (w ++ u ++ (old ++ back)))  :
            codeStep e o c (w ++ u ++ (new ++ back')) = codeStep e o c (w ++ u ++ (old ++ back)) := by
          rw [hm] at hle hmore hback
          refine codeStep_swap ho hn hf hblock ha (fun hq => isClosed_swap ho hn hq (hclosed c hq) fun hb => ?_) hle
          rcases hopen with rfl | hopen
          · left
            have hq' : isClosed c (w ++ u ++ (old ++ back)) := by
              rw [isClosed_append_name hq ho.ne_nil ho.part, hb, Bool.or_true]
            rw [codeStep_quote hq hq'] at hmore hback
            have hlength : [Mode.code depth].length ≤ (Mode.code e :: o).length := by simp
            rw [List.eq_nil_of_length_eq_zero hmore.symm]
            exact (hback.closed_behind hq hlength).1 rfl
          · exact .inr (hopen c hq hb)
        rcases m with _ | ⟨x, t⟩
        · exact hcode 0 [] rfl
        cases x with
        | outside => exact outsideStep_swap ho hn ha hle
        | code e => exact hcode e t rfl
        | quoted q => exact quotedStep_swap ho hn _ q c _
        | document label =>
            refine documentStep_swap ho hn (hl label List.mem_cons_self) (fun hend hnone => ?_) hle
            have hs : step (.document label :: t) c (w ++ u ++ (old ++ back)) = ⟨none, 0, .document label :: t⟩ := by
              rw [step, documentStep, if_pos hend, hnone]
            rw [hs] at hmore hback
            rw [List.eq_nil_of_length_eq_zero hmore.symm]
            exact hback.odd rfl
      rw [List.append_assoc, List.append_assoc] at hstep
      have hback' := ih (hl.step c _) (ha.of_append (v := c :: w))
      rw [← hstep] at hmore hback' ⊢
      exact .cons hmore hback'

end

end Namesake.Php.Lexer
