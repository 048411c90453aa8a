import Mathlib.Data.List.Dedup
import Mathlib.Data.List.Induction
import Namesake.Watch

/-! What a watch hands on. Of each batch the wanted files are handed on in one call, whatever became of the calls
before; a call that fails leaves a note and no other trace. A session keeps to one task: in every session that a
script leads to, the tasks at work are the one it goes by, so what is handed on is told from the script alone. -/

namespace Namesake

theorem Glob.matchesAny_nil (name : String) : matchesAny name [] = false := rfl

namespace Watch

/-- The calls that batches lead to: one for each batch with wanted files. -/
def calls (w : Watch) (batches : List (List Change)) : List (List Path) :=
  (batches.map w.wanted).filter (· ≠ [])

/-- The batches that a script works through. With `waiting` a watch is on that has these still to come, and each
watch begins with all `batches`. -/
def heard (batches : List (List Change)) : Option (List (List Change)) → List Command → List (List Change)
  | _, [] => []
  | none, .start :: script => heard batches (some batches) script
  | some waiting, .start :: script => heard batches (some waiting) script
  | none, .run :: script => heard batches none script
  | some waiting, .run :: script => waiting ++ heard batches (some []) script
  | _, .stop :: script => heard batches none script

variable {σ : Type} {w : Watch} {handler : Handler σ} {batches : List (List Change)}

/-! ### Batches -/

theorem wants_iff (w : Watch) (c : Change) :
    w.wants c = true ↔ c.kind ≠ .deleted ∧ Language.isSource c.path = true ∧
      Glob.matchesAny (FileList.relative w.directory c.path) w.excluded = false := by
  have hnone : w.excluded = [] → Glob.matchesAny (FileList.relative w.directory c.path) w.excluded = false := by
    intro h
    rw [h, Glob.matchesAny_nil]
  rw [wants, Bool.and_eq_true, Bool.and_eq_true, bne_iff_ne, Bool.or_eq_true, decide_eq_true_iff, Bool.not_eq_true',
    or_iff_right_of_imp hnone, and_assoc]

/-- The first occurrences of a list's members are apart, by induction on its length: what follows the head is taken
from the list without it. -/
theorem nodup_eraseDups {α : Type} [BEq α] [LawfulBEq α] : ∀ l : List α, l.eraseDups.Nodup
  | [] => List.nodup_nil
  | x :: l => by
      rw [List.eraseDups_cons]
      refine List.nodup_cons.mpr ⟨fun hmem => ?_, nodup_eraseDups (l.filter fun y => !y == x)⟩
      have hx := (List.mem_filter.mp (List.mem_eraseDups.mp hmem)).2
      simp at hx
  termination_by l => l.length
  decreasing_by exact Nat.lt_succ_of_le (List.length_filter_le ..)

theorem mem_wanted (w : Watch) (batch : List Change) (p : Path) :
    p ∈ w.wanted batch ↔ (∃ c ∈ batch, c.path = p ∧ c.kind ≠ .deleted) ∧ Language.isSource p = true ∧
      Glob.matchesAny (FileList.relative w.directory p) w.excluded = false := by
  rw [wanted, List.mem_eraseDups, List.mem_map]
  constructor
  · rintro ⟨c, hc, rfl⟩
    obtain ⟨hmem, hwants⟩ := List.mem_filter.mp hc
    obtain ⟨hkind, hrest⟩ := (wants_iff w c).mp hwants
    exact ⟨⟨c, hmem, rfl, hkind⟩, hrest⟩
  · rintro ⟨⟨c, hmem, rfl, hkind⟩, hrest⟩
    exact ⟨c, List.mem_filter.mpr ⟨hmem, (wants_iff w c).mpr ⟨hkind, hrest⟩⟩, rfl⟩

theorem calls_append (w : Watch) (batches batches' : List (List Change)) :
    w.calls (batches ++ batches') = w.calls batches ++ w.calls batches' := by
  rw [calls, List.map_append, List.filter_append]
  rfl

/-- The state after calls, whether they fail or not. -/
def answer (handler : Handler σ) (calls : List (List Path)) (state : σ) : σ :=
  calls.foldl (fun st paths => (handler paths st).state) state

theorem answer_append (calls calls' : List (List Path)) (state : σ) :
    answer handler (calls ++ calls') state = answer handler calls' (answer handler calls state) :=
  List.foldl_append

/-- One batch leads to one call, or to none if nothing in it is wanted. -/
theorem state_deliver (w : Watch) (handler : Handler σ) (p : Progress σ) (batch : List Change) :
    (deliver w handler p batch).state = answer handler (w.calls [batch]) p.state := by
  rw [deliver, calls, List.map_singleton]
  cases hwanted : w.wanted batch with
  | nil => rfl
  | cons path paths => rfl

/-- Batches lead to their calls one after the other. -/
theorem state_foldl_deliver (w : Watch) (handler : Handler σ) (p : Progress σ) (batches : List (List Change)) :
    (batches.foldl (deliver w handler) p).state = answer handler (w.calls batches) p.state := by
  induction batches generalizing p with
  | nil => rfl
  | cons batch batches ih =>
      rw [List.foldl_cons, ih, state_deliver, ← answer_append, ← calls_append]
      rfl

/-- The recorder has the calls that were made, whichever of them fail. -/
theorem answer_recorder (failing : List Nat) (calls made : List (List Path)) :
    answer (recorder failing) calls made = made ++ calls := by
  induction calls generalizing made with
  | nil => rw [List.append_nil]; rfl
  | cons paths calls ih =>
      show answer (recorder failing) calls (made ++ [paths]) = _
      rw [ih, List.append_assoc]
      rfl

/-! ### Sessions -/

namespace Session

/-- The tasks at work are the one that the session goes by. -/
def Single (s : Session σ) : Prop :=
  s.tasks.map (·.number) = s.task.toList

/-- What the watch that is on has still to work through. -/
def pending (s : Session σ) : Option (List (List Change)) :=
  s.tasks.head?.map (·.waiting)

variable {s : Session σ}

theorem Single.cases (h : s.Single) :
    s.task = none ∧ s.tasks = [] ∨ ∃ t, s.task = some t.number ∧ s.tasks = [t] := by
  rw [Single] at h
  cases htask : s.task with
  | none =>
      rw [htask] at h
      exact .inl ⟨rfl, List.map_eq_nil_iff.mp h⟩
  | some n =>
      rw [htask] at h
      obtain ⟨t, ht, rfl⟩ := List.map_eq_singleton_iff.mp h
      exact .inr ⟨t, rfl, ht⟩

theorem Single.length_tasks (h : s.Single) : s.tasks.length = s.task.toList.length := by
  rw [← h, List.length_map]

/-- What one command preserves, and what it does: the calls for what is pending, if it is to run. -/
theorem Single.obey (h : s.Single) (w : Watch) (handler : Handler σ) (batches : List (List Change)) (c : Command)
    (script : List Command) :
    (s.obey w handler batches c).Single ∧ ∃ now, heard batches s.pending (c :: script) =
        now ++ heard batches (s.obey w handler batches c).pending script ∧
      (s.obey w handler batches c).progress.state = answer handler (w.calls now) s.progress.state := by
  obtain ⟨task, tasks, started, progress⟩ := s
  rcases h.cases with ⟨htask, htasks⟩ | ⟨t, htask, htasks⟩
  · obtain rfl : task = none := htask
    obtain rfl : tasks = [] := htasks
    cases c <;> exact ⟨rfl, [], rfl, rfl⟩
  · obtain rfl : task = some t.number := htask
    obtain rfl : tasks = [t] := htasks
    cases c with
    | start => exact ⟨rfl, [], rfl, rfl⟩
    | run => exact ⟨rfl, t.waiting, rfl, state_foldl_deliver w handler progress t.waiting⟩
    | stop =>
        have hnone : [t].filter (·.number != t.number) = [] := by simp
        refine ⟨congrArg (List.map Task.number) hnone, [], ?_, rfl⟩
        show heard batches none script = heard batches (([t].filter (·.number != t.number)).head?.map (·.waiting)) script
        rw [hnone]
        rfl

/-- What a script preserves, and the calls it leads to. -/
theorem Single.play (h : s.Single) (w : Watch) (handler : Handler σ) (batches : List (List Change))
    (script : List Command) :
    (s.play w handler batches script).Single ∧ (s.play w handler batches script).progress.state =
      answer handler (w.calls (heard batches s.pending script)) s.progress.state := by
  induction script generalizing s with
  | nil =>
      have hnone : heard batches s.pending [] = [] := by cases s.pending <;> rfl
      rw [hnone]
      exact ⟨h, rfl⟩
  | cons c script ih =>
      obtain ⟨hobey, now, hheard, hstate⟩ := h.obey w handler batches c script
      obtain ⟨hplay, hrest⟩ := ih hobey
      refine ⟨hplay, ?_⟩
      rw [hheard, calls_append, answer_append, ← hstate]
      exact hrest

/-- A watch is on exactly if the last command but for those to run was to start one. -/
theorem task_play (w : Watch) (handler : Handler σ) (batches : List (List Change)) (state : σ)
    (script : List Command) :
    ((Session.begin state).play w handler batches script).task.isSome = true ↔
      (script.filter (· ≠ .run)).getLast? = some .start := by
  induction script using List.reverseRecOn with
  | nil => exact iff_of_false nofun nofun
  | append_singleton script c ih =>
      rw [play, List.foldl_append, List.foldl_cons, List.foldl_nil, List.filter_append]
      rw [play] at ih
      generalize List.foldl (Session.obey w handler batches) (Session.begin state) script = s at ih ⊢
      cases c with
      | start =>
          refine iff_of_true ?_ (List.getLast?_concat ..)
          cases htask : s.task <;> simp [Session.obey, htask]
      | run =>
          rw [List.filter_singleton]
          simpa [Session.obey] using ih
      | stop =>
          refine iff_of_false ?_ ?_
          · cases htask : s.task <;> simp [Session.obey, htask]
          · simp

end Session

/-- **No batch is lost to a call that fails.** The files of a batch that are handed on are those with an entry that
is no deletion, the suffix of a source, and no match among the patterns to leave out, each once. Whatever handler
takes them, a script leads to one call for each batch that is worked through and has such files, in the order of the
batches, and the recorder has had these calls, whichever of them fail. At no time is there more than one task, and
there is one exactly if the last of the starts and stops was a start. -/
theorem loses_no_batch (w : Watch) (handler : Handler σ) (batches : List (List Change)) (state : σ)
    (script : List Command) :
    (∀ batch, (w.wanted batch).Nodup ∧ ∀ p, p ∈ w.wanted batch ↔
      (∃ c ∈ batch, c.path = p ∧ c.kind ≠ .deleted) ∧ Language.isSource p = true ∧
        Glob.matchesAny (FileList.relative w.directory p) w.excluded = false) ∧
    (Session.play w handler batches (.begin state) script).progress.state =
      (w.calls (heard batches none script)).foldl (fun st paths => (handler paths st).state) state ∧
    (Session.play w handler batches (.begin state) script).tasks.length ≤ 1 ∧
    ((Session.play w handler batches (.begin state) script).tasks.length = 1 ↔
      (script.filter (· ≠ .run)).getLast? = some .start) ∧
    ∀ failing, (Session.play w (recorder failing) batches (.begin []) script).progress.state =
      w.calls (heard batches none script) := by
  have hbegin {τ : Type} (st : τ) : (Session.begin st).Single := rfl
  obtain ⟨hsingle, hstate⟩ := (hbegin state).play w handler batches script
  refine ⟨fun batch => ⟨nodup_eraseDups _, mem_wanted w batch⟩, hstate, ?_, ?_, fun failing => ?_⟩
  · rw [hsingle.length_tasks]
    exact Option.length_toList_le
  · rw [hsingle.length_tasks, ← Session.task_play w handler batches state script]
    cases (Session.play w handler batches (.begin state) script).task <;> simp
  · obtain ⟨-, hstate⟩ := (hbegin []).play w (recorder failing) batches script
    rw [hstate, answer_recorder]
    exact List.nil_append _

end Watch

end Namesake
