import Mathlib.Tactic
import Mathlib.Data.List.TakeWhile
import Namesake.Proofs.Reading

/-! How the modes change. A step looks at the mode on top of the stack and changes nothing below it; what it can do
there is said once for each mode. From this follow the labels of here-documents, and that a string which the scanner leaves behind
was closed in what it has read. -/

namespace Namesake.Php.Lexer

theorem label_of_heading? {cs : List Char} {h : Heading} (hh : heading? cs = some h) : ∀ c ∈ h.label, isNamePart c := by
  simp only [heading?, Option.ite_none_right_eq_some, Option.some.injEq] at hh
  obtain ⟨-, rfl⟩ := hh
  exact fun c hc => List.mem_takeWhile_imp hc

/-- What a step in code can do: it stays there, leaves the code, begins a string or a here-document, or ends
the code put into a string. -/
inductive CodeTurn (depth : Nat) (outer : List Mode) (c : Char) (cs : List Char) (s : Step) : Prop
  | stays (d : Nat) (hm : s.modes = .code d :: outer)
      (hl : ∀ l ∈ s.lexeme, l ≠ .opening .insertion ∧ l ≠ .closing .insertion)
  | leaves (hm : s.modes = .outside :: .code depth :: outer) (hl : s.lexeme = some .leave)
  | quotes (hc : c ∈ ['"', '\x60']) (hm : s.modes = .quoted c :: .code depth :: outer) (hl : s.lexeme = some .quote)
      (hmore : s.more = 0) (hclosed : isClosed c cs)
  | documents (label : List Char) (hlabel : ∀ c ∈ label, isNamePart c)
      (hm : s.modes = .document label :: .code depth :: outer) (hl : s.lexeme = some .quote)
  | closes (ho : outer ≠ []) (hc : c = '}') (hs : s = ⟨some (.closing .insertion), 0, outer⟩)

theorem CodeTurn.ofToken {depth d : Nat} {outer : List Mode} {c : Char} {cs : List Char} {s : Step} {l : Lexeme}
    (hm : s.modes = .code d :: outer) (hl : s.lexeme = some l) (hopen : l ≠ .opening .insertion)
    (hclose : l ≠ .closing .insertion) : CodeTurn depth outer c cs s :=
  .stays d hm fun l' hl' => by
    rw [hl, Option.mem_some_iff] at hl'
    subst hl'
    exact ⟨hopen, hclose⟩

theorem signStep_turn (depth : Nat) (outer : List Mode) (c : Char) (cs : List Char) :
    CodeTurn depth outer c cs (signStep depth outer c cs) := by
  fun_cases signStep depth outer c cs
  case case4 hclosed =>
    rw [if_pos hclosed]
    exact .quotes (by decide) rfl rfl rfl hclosed
  case case5 hopen =>
    rw [if_neg hopen]
    exact .ofToken rfl rfl (by simp) (by simp)
  case case6 hclosed =>
    rw [if_pos hclosed]
    exact .quotes (by decide) rfl rfl rfl hclosed
  case case7 hopen =>
    rw [if_neg hopen]
    exact .ofToken rfl rfl (by simp) (by simp)
  case case9 h hh _ _ => exact .documents _ (label_of_heading? hh) rfl rfl
  case case17 => exact .leaves rfl rfl
  case case27 hinner =>
    rw [Bool.and_eq_true] at hinner
    exact .closes (by simpa using hinner.2) rfl rfl
  case case29 => refine .ofToken rfl rfl ?_ ?_ <;> split <;> simp
  all_goals exact .ofToken rfl rfl (by simp) (by simp)

theorem codeStep_turn (depth : Nat) (outer : List Mode) (c : Char) (cs : List Char) :
    CodeTurn depth outer c cs (codeStep depth outer c cs) := by
  rw [codeStep]
  split
  · exact .stays depth rfl (by simp)
  split
  · exact .ofToken rfl rfl (by simp) (by simp)
  split
  · exact .ofToken rfl rfl (by simp) (by simp)
  · exact signStep_turn depth outer c cs

/-- What a step in a string or here-document can do, in the modes `m`, where `On` holds when it goes on and
`Ends` when it ends: the third case puts code into it. -/
inductive StringTurn (On Ends : Prop) (m : List Mode) (c : Char) (cs : List Char) (s : Step) : Prop
  | goesOn (on : On) (hl : s.lexeme = none) (hm : s.modes = m)
  | ends (he : Ends) (hl : s.lexeme = none) (hm : s.modes = m.tail)
  | inserts (hc : c = '{' ∧ s.more = 0 ∨ c = '$' ∧ cs.head? = some '{' ∧ s.more = 1)
      (hl : s.lexeme = some (.opening .insertion)) (hm : s.modes = .code 0 :: m)

theorem insertionStep?_eq_some {m : List Mode} {c : Char} {cs : List Char} {s : Step} (h : insertionStep? m c cs = some s) :
    (c = '{' ∧ s.more = 0 ∨ c = '$' ∧ cs.head? = some '{' ∧ s.more = 1) ∧
      s.lexeme = some (.opening .insertion) ∧ s.modes = .code 0 :: m := by
  rw [insertionStep?.eq_def] at h
  split at h
  · cases h
    exact ⟨.inl ⟨rfl, rfl⟩, rfl, rfl⟩
  · cases h
    exact ⟨.inr ⟨rfl, rfl, rfl⟩, rfl, rfl⟩
  · cases h

theorem quotedStep_turn (q : Char) (m : List Mode) (c : Char) (cs : List Char) :
    StringTurn (c = '\\' ∧ (quotedStep q m c cs).more = 1 ∨ c ≠ '\\' ∧ c ≠ q ∧ (quotedStep q m c cs).more = 0)
      (c = q) m c cs (quotedStep q m c cs) := by
  by_cases hq : c = q
  · have hs : quotedStep q m c cs = ⟨none, 0, m.tail⟩ := by simp [quotedStep, hq]
    rw [hs]
    exact .ends hq rfl rfl
  by_cases hc : c = '\\'
  · have hs : quotedStep q m c cs = ⟨none, 1, m⟩ := by
      rw [quotedStep, if_neg (by simpa using hq), if_pos (by simpa using hc)]
    rw [hs]
    exact .goesOn (.inl ⟨hc, rfl⟩) rfl rfl
  · have hs : quotedStep q m c cs = (insertionStep? m c cs).getD ⟨none, 0, m⟩ := by
      rw [quotedStep, if_neg (by simpa using hq), if_neg (by simpa using hc)]
    rw [hs]
    cases h : insertionStep? m c cs with
    | none => exact .goesOn (.inr ⟨hc, hq, rfl⟩) rfl rfl
    | some s =>
        obtain ⟨hc, hl, hm⟩ := insertionStep?_eq_some h
        exact .inserts hc hl hm

theorem documentStep_turn (label : List Char) (m : List Mode) (c : Char) (cs : List Char) :
    StringTurn True (isLineEnd c) m c cs (documentStep label m c cs) := by
  rw [documentStep]
  split
  · rename_i hend
    split
    · exact .ends hend rfl rfl
    · exact .goesOn trivial rfl rfl
  split
  · exact .goesOn trivial rfl rfl
  · cases h : insertionStep? m c cs with
    | none => exact .goesOn trivial rfl rfl
    | some s =>
        obtain ⟨hc, hl, hm⟩ := insertionStep?_eq_some h
        exact .inserts hc hl hm

/-- What a step outside the code can do. -/
theorem outsideStep_turn (m : List Mode) (c : Char) (cs : List Char) :
    ((outsideStep m c cs).modes = m ∧ ∀ l ∈ (outsideStep m c cs).lexeme, l = .text) ∨
      ((outsideStep m c cs).modes = m.tail ∧ (outsideStep m c cs).lexeme = some .enter) := by
  rw [outsideStep.eq_def]
  split
  · exact .inr ⟨rfl, rfl⟩
  · exact .inl ⟨rfl, by simp⟩
  split
  · exact .inl ⟨rfl, by simp⟩
  · exact .inl ⟨rfl, by simp⟩

/-- A step changes nothing below the mode on top. -/
theorem exists_modes_append (x : Mode) (t : List Mode) (c : Char) (cs : List Char) :
    ∃ g, (step (x :: t) c cs).modes = g ++ t := by
  cases x with
  | outside =>
      rcases outsideStep_turn (.outside :: t) c cs with ⟨h, -⟩ | ⟨h, -⟩
      · exact ⟨[.outside], h⟩
      · exact ⟨[], h⟩
  | code d =>
      cases codeStep_turn d t c cs with
      | stays d' hm => exact ⟨[.code d'], hm⟩
      | leaves hm => exact ⟨[.outside, .code d], hm⟩
      | quotes _ hm => exact ⟨[.quoted c, .code d], hm⟩
      | documents label _ hm => exact ⟨[.document label, .code d], hm⟩
      | closes _ _ hs => exact ⟨[], by rw [step, hs]; rfl⟩
  | quoted q =>
      cases quotedStep_turn q (.quoted q :: t) c cs with
      | goesOn _ _ hm => exact ⟨[.quoted q], hm⟩
      | ends _ _ hm => exact ⟨[], hm⟩
      | inserts _ _ hm => exact ⟨[.code 0, .quoted q], hm⟩
  | document label =>
      cases documentStep_turn label (.document label :: t) c cs with
      | goesOn _ _ hm => exact ⟨[.document label], hm⟩
      | ends _ _ hm => exact ⟨[], hm⟩
      | inserts _ _ hm => exact ⟨[.code 0, .document label], hm⟩

/-! ### Labels -/

/-- The labels of the here-documents are names. -/
def Labelled (m : List Mode) : Prop :=
  ∀ label, .document label ∈ m → ∀ c ∈ label, isNamePart c

theorem Labelled.tail {m : List Mode} (h : Labelled m) : Labelled m.tail :=
  fun label hl => h label (List.mem_of_mem_tail hl)

theorem Labelled.cons {x : Mode} {m : List Mode} (h : Labelled m)
    (hx : ∀ label, x = .document label → ∀ c ∈ label, isNamePart c) : Labelled (x :: m) := by
  intro label hl
  rcases List.mem_cons.mp hl with rfl | hl
  · exact hx label rfl
  · exact h label hl

theorem Labelled.step {m : List Mode} (h : Labelled m) (c : Char) (cs : List Char) : Labelled (step m c cs).modes := by
  have hcode (d : Nat) {t : List Mode} (ht : Labelled t) : Labelled (codeStep d t c cs).modes := by
    have hhere : Labelled (.code d :: t) := ht.cons (fun _ h => nomatch h)
    cases codeStep_turn d t c cs with
    | stays d' hm => rw [hm]; exact ht.cons (fun _ h => nomatch h)
    | leaves hm => rw [hm]; exact hhere.cons (fun _ h => nomatch h)
    | quotes _ hm => rw [hm]; exact hhere.cons (fun _ h => nomatch h)
    | documents label hlabel hm =>
        rw [hm]
        exact hhere.cons (fun _ h => by cases h; exact hlabel)
    | closes _ _ hs => rw [hs]; exact ht
  have hstring {On Ends : Prop} {s : Step} (hs : StringTurn On Ends m c cs s) : Labelled s.modes := by
    cases hs with
    | goesOn _ _ hm => rw [hm]; exact h
    | ends _ _ hm => rw [hm]; exact h.tail
    | inserts _ _ hm => rw [hm]; exact h.cons (fun _ h => nomatch h)
  rcases m with _ | ⟨x, t⟩
  · exact hcode 0 h
  cases x with
  | outside =>
      rcases outsideStep_turn (.outside :: t) c cs with ⟨hm, -⟩ | ⟨hm, -⟩
      · rw [Lexer.step, hm]; exact h
      · rw [Lexer.step, hm]; exact h.tail
  | code d => exact hcode d h.tail
  | quoted q => exact hstring (quotedStep_turn q _ c cs)
  | document label => exact hstring (documentStep_turn label _ c cs)

/-! ### Strings that are left behind -/

theorem isClosed_cons {c : Char} (hc : c ≠ '\\') (q : Char) (cs : List Char) :
    isClosed q (c :: cs) = (c == q || isClosed q cs) := by
  rw [isClosed]
  rintro _ _ rfl
  exact absurd rfl hc

/-- A search for a quote that may begin at either of two places comes to one of them from anywhere in front. -/
theorem isClosed_append {q : Char} {u : List Char} (h : isClosed q u) (htail : isClosed q u.tail) (w : List Char) :
    isClosed q (w ++ u) := by
  induction hlen : w.length using Nat.strong_induction_on generalizing w with
  | _ len ih =>
      rcases w with _ | ⟨c, w⟩
      · exact h
      rw [List.length_cons] at hlen
      by_cases hc : c = '\\'
      · subst hc
        rcases w with _ | ⟨d, w⟩
        · rcases u with _ | ⟨d, u⟩
          · cases h
          · exact htail
        · rw [List.length_cons] at hlen
          exact ih w.length (by omega) w rfl
      · rw [List.cons_append, isClosed_cons hc, ih w.length (by omega) w rfl, Bool.or_true]

/-- A string is closed in what one of its steps reads and what follows, if it is closed in what follows wherever it goes
on. -/
theorem isClosed_of_quotedStep {q c : Char} (hq : q ≠ '\\') {outer : List Mode} {w u rest : List Char}
    (hmore : (step (.quoted q :: outer) c (w ++ (u ++ rest))).more = w.length)
    (hstays : (step (.quoted q :: outer) c (w ++ (u ++ rest))).modes = .quoted q :: outer → isClosed q u)
    (henters : (step (.quoted q :: outer) c (w ++ (u ++ rest))).modes = .code 0 :: .quoted q :: outer → isClosed q u) :
    isClosed q (c :: (w ++ u)) := by
  cases quotedStep_turn q (.quoted q :: outer) c (w ++ (u ++ rest)) with
  | goesOn on _ hm =>
      have hu := hstays hm
      rcases on with ⟨rfl, hlen⟩ | ⟨hc, -, hlen⟩
      · obtain ⟨d, rfl⟩ := List.length_eq_one_iff.mp (hmore.symm.trans hlen)
        exact hu
      · rw [List.eq_nil_of_length_eq_zero (hmore.symm.trans hlen), List.nil_append, isClosed_cons hc, hu, Bool.or_true]
  | ends he _ _ =>
      subst he
      rw [isClosed_cons hq, beq_self_eq_true, Bool.true_or]
  | inserts hc _ hm =>
      have hu := henters hm
      rcases hc with ⟨rfl, hlen⟩ | ⟨rfl, hhead, hlen⟩
      · rw [List.eq_nil_of_length_eq_zero (hmore.symm.trans hlen), List.nil_append, isClosed_cons (by decide), hu,
          Bool.or_true]
      · obtain ⟨d, rfl⟩ := List.length_eq_one_iff.mp (hmore.symm.trans hlen)
        simp only [List.cons_append, List.head?_cons, Option.some.injEq] at hhead
        subst hhead
        rw [isClosed_cons (by decide), List.cons_append, List.nil_append, isClosed_cons (by decide), hu, Bool.or_true,
          Bool.or_true]

/-- A string that the scanner leaves behind is closed in what it has read. Code that is put into it may cut an escape in
two, but then the brace that ends the code makes up for it. -/
theorem Reads.closed_behind {rest : List Char} {arrival m : List Mode} {n : Nat} {used : List Char} {ts : List Token}
    (h : Reads rest arrival m n used ts) {q : Char} (hq : q ∈ ['"', '\x60']) {outer : List Mode}
    (ha : arrival.length ≤ outer.length) :
    (m = .quoted q :: outer → isClosed q used) ∧
      ∀ f d, m = f ++ .code d :: .quoted q :: outer → isClosed q used ∧ isClosed q used.tail := by
  have hqb : q ≠ '\\' := by
    rintro rfl
    exact absurd hq (by decide)
  induction h with
  | nil =>
      refine ⟨?_, ?_⟩
      · rintro rfl
        simp at ha
      · rintro f d rfl
        simp at ha
        omega
  | @cons m n c w u ts hmore _ ih =>
      refine ⟨?_, ?_⟩
      · rintro rfl
        exact isClosed_of_quotedStep hqb hmore ih.1 fun hm => (ih.2 [] 0 hm).1
      · rintro f d rfl
        have hfrom (h : isClosed q u ∧ isClosed q u.tail) :
            isClosed q (c :: (w ++ u)) ∧ isClosed q (c :: (w ++ u)).tail :=
          ⟨isClosed_append h.1 h.2 (c :: w), isClosed_append h.1 h.2 w⟩
        rcases f with _ | ⟨x, f⟩
        · cases codeStep_turn d (.quoted q :: outer) c (w ++ (u ++ rest)) with
          | stays d' hm => exact hfrom (ih.2 [] d' hm)
          | leaves hm => exact hfrom (ih.2 [.outside] d hm)
          | quotes _ hm => exact hfrom (ih.2 [.quoted c] d hm)
          | documents label _ hm => exact hfrom (ih.2 [.document label] d hm)
          | closes _ hc hs =>
              -- back in the string, what follows the brace may be searched from the brace or from behind it
              have hstep : step (.code d :: .quoted q :: outer) c (w ++ (u ++ rest)) = _ := hs
              simp only [List.nil_append, hstep] at hmore ih
              have hu := ih.1 trivial
              rw [List.eq_nil_of_length_eq_zero hmore.symm, hc, List.nil_append, isClosed_cons (by decide), hu,
                Bool.or_true]
              exact ⟨rfl, hu⟩
        · obtain ⟨g, hg⟩ := exists_modes_append x (f ++ .code d :: .quoted q :: outer) c (w ++ (u ++ rest))
          exact hfrom (ih.2 (g ++ f) d (hg.trans (List.append_assoc _ _ _).symm))

end Namesake.Php.Lexer
