import Namesake.Proofs.Modes

/-! How deep the scanner stands. Below every stack of modes there is code, so the scanner never runs out of modes. Each
piece of code that is put into a string adds one mode of code and its end takes one away; so where as many of them have
ended as have begun, no string is open below. -/

namespace Namesake.Php

/-- The number of pieces of code that some tokens begin inside strings. -/
def begunInsertions (ts : List Token) : Nat :=
  ts.countP fun t => t.lexeme = .opening .insertion

def endedInsertions (ts : List Token) : Nat :=
  ts.countP fun t => t.lexeme = .closing .insertion

namespace Lexer

def Mode.isCode : Mode → Bool
  | .code _ => true
  | _ => false

/-- The lowest mode is code. -/
def Grounded (m : List Mode) : Prop :=
  ∃ x ∈ m.getLast?, x.isCode

theorem Grounded.cons {m : List Mode} (h : Grounded m) (x : Mode) : Grounded (x :: m) := by
  obtain ⟨y, hy, hcode⟩ := h
  refine ⟨y, ?_, hcode⟩
  rw [List.getLast?_cons, Option.mem_def.mp hy]
  rfl

theorem grounded_code (d : Nat) (m : List Mode) (h : m = [] ∨ Grounded m) : Grounded (.code d :: m) := by
  rcases h with rfl | h
  · exact ⟨.code d, rfl, rfl⟩
  · exact h.cons _

/-- What is below the mode on top is grounded as well, if there is something. -/
theorem Grounded.tail {x : Mode} {m : List Mode} (h : Grounded (x :: m)) : m = [] ∨ Grounded m := by
  cases m with
  | nil => exact .inl rfl
  | cons y m =>
      obtain ⟨z, hz, hcode⟩ := h
      rw [List.getLast?_cons_cons] at hz
      exact .inr ⟨z, hz, hcode⟩

theorem Grounded.tail_of_not {x : Mode} {m : List Mode} (h : Grounded (x :: m)) (hx : x.isCode = false) : Grounded m := by
  refine h.tail.resolve_left ?_
  rintro rfl
  obtain ⟨y, hy, hcode⟩ := h
  obtain rfl : x = y := Option.some.inj hy
  rw [hx] at hcode
  cases hcode

/-- The number of pieces of code on a stack of modes. -/
def level (m : List Mode) : Nat :=
  m.countP Mode.isCode

theorem level_code (d : Nat) (m : List Mode) : level (.code d :: m) = level m + 1 :=
  List.countP_cons_of_pos rfl

theorem level_cons_of_not {x : Mode} (hx : x.isCode = false) (m : List Mode) : level (x :: m) = level m :=
  List.countP_cons_of_neg (by rw [hx]; nofun)

theorem Grounded.level_pos {m : List Mode} (h : Grounded m) : 0 < level m := by
  obtain ⟨x, hx, hcode⟩ := h
  exact List.countP_pos_iff.mpr ⟨x, List.mem_of_getLast? hx, hcode⟩

/-- The modes that a step leaves are grounded, and if it begins or ends code inside a string their level says so. -/
structure Settles (m : List Mode) (s : Step) : Prop where
  grounded : Grounded s.modes
  level : level s.modes + (if s.lexeme = some (.closing .insertion) then 1 else 0) =
    level m + if s.lexeme = some (.opening .insertion) then 1 else 0

theorem codeStep_settles {d : Nat} {outer : List Mode} (h : outer = [] ∨ Grounded outer) (c : Char) (cs : List Char) :
    Settles (.code d :: outer) (codeStep d outer c cs) := by
  have hhere := grounded_code d outer h
  cases codeStep_turn d outer c cs with
  | stays e hm hl =>
      refine ⟨hm ▸ grounded_code e outer h, ?_⟩
      have hclose : (codeStep d outer c cs).lexeme ≠ some (.closing .insertion) := fun he => (hl _ he).2 rfl
      have hopen : (codeStep d outer c cs).lexeme ≠ some (.opening .insertion) := fun he => (hl _ he).1 rfl
      rw [hm, if_neg hclose, if_neg hopen, level_code, level_code]
  | leaves hm hl => exact ⟨hm ▸ hhere.cons _, by rw [hm, hl, level_cons_of_not rfl]; rfl⟩
  | quotes hc hm hl => exact ⟨hm ▸ hhere.cons _, by rw [hm, hl, level_cons_of_not rfl]; rfl⟩
  | documents label hlabel hm hl => exact ⟨hm ▸ hhere.cons _, by rw [hm, hl, level_cons_of_not rfl]; rfl⟩
  | closes ho hc hs =>
      refine ⟨hs ▸ h.resolve_left ho, ?_⟩
      rw [hs, level_code]
      rfl

theorem StringTurn.settles {On Ends : Prop} {x : Mode} {m : List Mode} {c : Char} {cs : List Char} {s : Step}
    (h : StringTurn On Ends (x :: m) c cs s) (hx : x.isCode = false) (hm : Grounded (x :: m)) : Settles (x :: m) s := by
  cases h with
  | goesOn on hl hmodes => exact ⟨hmodes ▸ hm, by rw [hmodes, hl]; rfl⟩
  | ends he hl hmodes =>
      refine ⟨hmodes ▸ hm.tail_of_not hx, ?_⟩
      rw [hmodes, hl, level_cons_of_not hx]
      rfl
  | inserts hc hl hmodes =>
      refine ⟨hmodes ▸ hm.cons _, ?_⟩
      rw [hmodes, hl, level_code]
      rfl

theorem step_settles {m : List Mode} (h : Grounded m) (c : Char) (cs : List Char) : Settles m (step m c cs) := by
  cases m with
  | nil =>
      obtain ⟨_, hx, -⟩ := h
      cases hx
  | cons x m =>
      cases x with
      | code d => exact codeStep_settles h.tail c cs
      | quoted q => exact (quotedStep_turn q _ c cs).settles rfl h
      | document label => exact (documentStep_turn label _ c cs).settles rfl h
      | outside =>
          rcases outsideStep_turn (.outside :: m) c cs with ⟨hm, hl⟩ | ⟨hm, hl⟩
          · refine ⟨by rw [step, hm]; exact h, ?_⟩
            have hclose : (outsideStep (.outside :: m) c cs).lexeme ≠ some (.closing .insertion) := fun he => by cases hl _ he
            have hopen : (outsideStep (.outside :: m) c cs).lexeme ≠ some (.opening .insertion) := fun he => by cases hl _ he
            rw [step, hm, if_neg hclose, if_neg hopen]
          · refine ⟨by rw [step, hm]; exact h.tail_of_not rfl, ?_⟩
            rw [step, hm, hl]
            rfl

namespace Reads

variable {rest : List Char} {arrival m : List Mode} {n : Nat} {used : List Char} {ts : List Token}

/-- What every step preserves a run preserves. -/
theorem preserves {P : List Mode → Prop} (hstep : ∀ m c cs, P m → P (step m c cs).modes)
    (h : Reads rest arrival m n used ts) (hm : P m) : P arrival := by
  induction h with
  | nil => exact hm
  | cons _ _ ih => exact ih (hstep _ _ _ hm)

theorem grounded (h : Reads rest arrival m n used ts) (hm : Grounded m) : Grounded arrival :=
  h.preserves (fun _ c cs hm => (step_settles hm c cs).grounded) hm

theorem countP_tokenOf (s : Step) (n : Nat) (c : Char) (cs : List Char) (l : Lexeme) :
    (tokenOf s n c cs).countP (fun t => t.lexeme = l) = if s.lexeme = some l then 1 else 0 := by
  rw [tokenOf]
  cases s.lexeme with
  | none => rfl
  | some k =>
      simp only [Option.map_some, Option.toList_some, List.countP_singleton, decide_eq_true_eq, Option.some.injEq]

/-- The level counts the code inside strings. -/
theorem level_eq (h : Reads rest arrival m n used ts) (hm : Grounded m) :
    level arrival + endedInsertions ts = level m + begunInsertions ts := by
  induction h with
  | nil => rfl
  | @cons m n c w u ts _ _ ih =>
      have hstep := step_settles hm c (w ++ (u ++ rest))
      have hback := ih hstep.grounded
      have hlevel := hstep.level
      simp only [endedInsertions, begunInsertions, List.countP_append, countP_tokenOf] at hback ⊢
      omega

/-- Where as much code inside strings has ended as has begun, no string is open below the code. -/
theorem eq_nil_of_balanced {d : Nat} {outer : List Mode}
    (h : Reads rest (.code d :: outer) [.outside, .code 0] n used ts) (hts : begunInsertions ts = endedInsertions ts) :
    outer = [] := by
  have hstart : Grounded [.outside, .code 0] := (grounded_code 0 [] (.inl rfl)).cons _
  have hlevel := h.level_eq hstart
  rw [hts, Nat.add_right_cancel_iff] at hlevel
  refine (h.grounded hstart).tail.resolve_right fun houter => ?_
  have hpos := houter.level_pos
  have hone : level [.outside, .code 0] = 1 := rfl
  rw [level_code] at hlevel
  omega

end Reads

end Lexer

end Namesake.Php
