import Mathlib.Data.Prod.Lex
import Mathlib.Order.Monotone.Basic
import Namesake.Proofs.FlatDisk
import Namesake.Proofs.Reviews

/-! Rows and columns as places in a text. A row begins behind the line end that closes the row before it; counted
from there the column leads back to the offset, so no two offsets have one place, and places come in the order of
the offsets. This goes for offsets behind the end of the text as well, which lie in its last row. -/

namespace Namesake

namespace Position

/-- Where a row begins: behind as many line ends as there are rows before it. A row that the text does not have
begins at the end of the text. -/
def rowStart : Octets → Nat → Nat
  | _, 0 => 0
  | [], _ + 1 => 0
  | b :: rest, row + 1 => (if b = newline then rowStart rest row else rowStart rest (row + 1)) + 1

def offset (data : Octets) (p : Position) : Int :=
  rowStart data p.row.toNat + p.column

/-- A place as places are compared: by row, then by column. -/
def key (p : Position) : ℤ ×ₗ ℤ :=
  toLex (p.row, p.column)

/-! ### The start of the last row -/

section

variable {data more : Octets} {b : UInt8} {row : Nat}

theorem lineStart_concat_newline (data : Octets) : lineStart (data ++ [newline]) = data.length + 1 := by
  have hnone : ((data ++ [newline]).reverse.takeWhile (· != newline)) = [] := by
    rw [List.reverse_append, List.reverse_singleton, List.singleton_append]
    exact List.takeWhile_cons_of_neg (by simp)
  rw [lineStart, hnone, List.length_append]
  rfl

theorem lineStart_concat (hb : b ≠ newline) (data : Octets) : lineStart (data ++ [b]) = lineStart data := by
  have hmore : (data ++ [b]).reverse.takeWhile (· != newline) = b :: data.reverse.takeWhile (· != newline) := by
    rw [List.reverse_append, List.reverse_singleton, List.singleton_append]
    exact List.takeWhile_cons_of_pos (by simpa using hb)
  rw [lineStart, lineStart, hmore, List.length_append, List.length_singleton, List.length_cons, Nat.add_sub_add_right]

theorem lineStart_le (data : Octets) : lineStart data ≤ data.length :=
  Nat.sub_le _ _

/-- The last row holds no line end. -/
theorem newline_notMem_drop_lineStart (data : Octets) : newline ∉ data.drop (lineStart data) := by
  induction data using List.reverseRecOn with
  | nil => exact List.not_mem_nil
  | append_singleton data b ih =>
      by_cases hb : b = newline
      · rw [hb, lineStart_concat_newline, List.drop_of_length_le (by simp)]
        exact List.not_mem_nil
      · rw [lineStart_concat hb, List.drop_append_of_le_length (lineStart_le data), List.mem_append, not_or]
        exact ⟨ih, fun h => hb (List.mem_singleton.mp h).symm⟩

/-- What holds no line end goes on in the last row. -/
theorem lineStart_append (h : newline ∉ more) (data : Octets) : lineStart (data ++ more) = lineStart data := by
  induction more using List.reverseRecOn with
  | nil => rw [List.append_nil]
  | append_singleton more b ih =>
      rw [List.mem_append, not_or] at h
      have hb : b ≠ newline := fun heq => h.2 (List.mem_singleton.mpr heq.symm)
      rw [← List.append_assoc, lineStart_concat hb, ih h.1]

/-- Where a row begins depends on what stands before it. -/
theorem rowStart_append (h : row ≤ data.count newline) (more : Octets) :
    rowStart (data ++ more) row = rowStart data row := by
  induction data generalizing row with
  | nil =>
      obtain rfl : row = 0 := Nat.le_zero.mp h
      cases more <;> rfl
  | cons b data ih =>
      cases row with
      | zero => rfl
      | succ row =>
          rw [List.cons_append, rowStart, rowStart]
          by_cases hb : b = newline
          · rw [hb, List.count_cons_self] at h
            rw [if_pos hb, if_pos hb, ih (by omega)]
          · rw [List.count_cons_of_ne hb] at h
            rw [if_neg hb, if_neg hb, ih h]

/-- A line end begins a row. -/
theorem rowStart_concat_newline (data : Octets) :
    rowStart (data ++ [newline]) (data.count newline + 1) = data.length + 1 := by
  induction data with
  | nil => rfl
  | cons b data ih =>
      rw [List.cons_append, rowStart, List.length_cons]
      by_cases hb : b = newline
      · rw [if_pos hb, hb, List.count_cons_self, ih]
      · rw [if_neg hb, List.count_cons_of_ne hb, ih]

/-- The row behind the last line end begins where this one ends. -/
theorem rowStart_count (data : Octets) : rowStart data (data.count newline) = lineStart data := by
  induction data using List.reverseRecOn with
  | nil => rfl
  | append_singleton data b ih =>
      rw [List.count_append, List.count_singleton]
      by_cases hb : b = newline
      · rw [hb, beq_self_eq_true, if_pos rfl, rowStart_concat_newline, lineStart_concat_newline]
      · rw [if_neg (by simpa using hb), Nat.add_zero, rowStart_append (Nat.le_refl _), ih, lineStart_concat hb]

end

/-! ### Places of offsets -/

section

variable (data : Octets)

theorem ofOffset_natCast (o : Nat) :
    ofOffset data o = ⟨((data.take o).count newline : Nat), o - (lineStart (data.take o) : Nat)⟩ := by
  have hreach : data.take (reach data.length o) = data.take o := by
    rw [reach, if_neg (by omega), Int.toNat_natCast, ← List.take_eq_take_min]
  rw [ofOffset, hreach]

/-- The column is the distance from the start of the row. -/
theorem offset_ofOffset (o : Nat) : (ofOffset data o).offset data = o := by
  have hrow : rowStart data ((data.take o).count newline) = lineStart (data.take o) := by
    rw [← rowStart_count, ← rowStart_append (Nat.le_refl _) (data.drop o), List.take_append_drop]
  rw [ofOffset_natCast, offset, Int.toNat_natCast, hrow]
  exact add_sub_cancel _ _

theorem lineStart_take_le (o : Nat) : lineStart (data.take o) ≤ o :=
  (lineStart_le _).trans (List.length_take_le o data)

theorem column_nonneg (o : Nat) : 0 ≤ (ofOffset data o).column := by
  have hle := lineStart_take_le data o
  rw [ofOffset_natCast]
  dsimp only
  omega

/-- Between the start of its row and an offset there is no line end. -/
theorem newline_notMem_row (o : Nat) : newline ∉ (data.take o).drop (o - (ofOffset data o).column.toNat) := by
  have hle := lineStart_take_le data o
  have hstart : o - (ofOffset data o).column.toNat = lineStart (data.take o) := by
    rw [ofOffset_natCast]
    dsimp only
    omega
  rw [hstart]
  exact newline_notMem_drop_lineStart _

/-- Places come in the order of the offsets. -/
theorem key_strictMono : StrictMono fun o : Nat => (ofOffset data o).key := by
  intro o o' ho
  dsimp only
  have hsplit : data.take o' = data.take o ++ (data.take o').drop o := by
    conv_lhs => rw [← List.take_append_drop o (data.take o'), List.take_take, Nat.min_eq_left ho.le]
  rw [ofOffset_natCast, ofOffset_natCast, key, key, Prod.Lex.toLex_lt_toLex, hsplit, List.count_append]
  by_cases hmid : newline ∈ (data.take o').drop o
  · have hcount := List.count_pos_iff.mpr hmid
    refine .inl ?_
    dsimp only
    omega
  · rw [List.count_eq_zero_of_not_mem hmid, lineStart_append hmid]
    refine .inr ⟨rfl, ?_⟩
    dsimp only
    omega

end

end Position

/-! ### Places of findings -/

namespace Batch

open Text

theorem exists_text_of_checkFile {r : Reconciler} {v : Vantage} {p : Path} {report : Report} {notes : List Note}
    (h : checkFile r v p = .ok (report, notes)) :
    ∃ u, SourceUnit.ofFile v p.render none = .ok u ∧ ∀ x ∈ report.findings, x = locate (Utf8.encode u.text) x.diagnostic := by
  obtain ⟨u, ds, hu, -, rfl⟩ := checkFile_eq_ok_iff.mp h
  refine ⟨u, hu, fun x hx => ?_⟩
  obtain ⟨d, -, rfl⟩ := List.mem_map.mp hx
  rfl

/-- A finding does not end before it begins, and its places lead back to its offsets. -/
theorem faithful_locate (data : Octets) (d : Diagnostic) :
    (locate data d).start.key ≤ (locate data d).stop.key ∧ (locate data d).start.offset data = d.range.start ∧
      (locate data d).stop.offset data = d.range.stop :=
  ⟨(Position.key_strictMono data).monotone d.range.ordered, Position.offset_ofOffset data _,
    Position.offset_ofOffset data _⟩

/-- **Places are faithful to offsets.** The row of an offset counts the line ends before it, its column the octets
from the start of the row, among which there is no line end; different offsets have different places, which come in
the order of the offsets. So a finding in a file does not end before it begins, and its places lead back to its
offsets in the text of the file. -/
theorem places_faithful (data : Octets) :
    (∀ o : Nat, o ≤ data.length →
      let p := Position.ofOffset data o
      p.row = (data.take o).count Position.newline ∧ 0 ≤ p.column ∧
      (o : Int) = Position.rowStart data p.row.toNat + p.column ∧
      Position.newline ∉ (data.take o).drop (o - p.column.toNat)) ∧
    (Function.Injective fun o : Nat => Position.ofOffset data o) ∧
    (StrictMono fun o : Nat => (Position.ofOffset data o).key) ∧
    ∀ r v p report notes, checkFile r v p = .ok (report, notes) →
      ∃ u, SourceUnit.ofFile v p.render none = .ok u ∧ ∀ x ∈ report.findings, x.start.key ≤ x.stop.key ∧
        x.start.offset (Utf8.encode u.text) = x.diagnostic.range.start ∧
        x.stop.offset (Utf8.encode u.text) = x.diagnostic.range.stop := by
  refine ⟨fun o _ => ⟨?_, Position.column_nonneg data o, (Position.offset_ofOffset data o).symm,
    Position.newline_notMem_row data o⟩, fun o o' heq => ?_, Position.key_strictMono data, ?_⟩
  · rw [Position.ofOffset_natCast]
  · have hoffsets := congrArg (Position.offset data) heq
    rw [Position.offset_ofOffset, Position.offset_ofOffset] at hoffsets
    exact Int.ofNat_inj.mp hoffsets
  · intro r v p report notes h
    obtain ⟨u, hu, hfindings⟩ := exists_text_of_checkFile h
    refine ⟨u, hu, fun x hx => ?_⟩
    rw [hfindings x hx]
    exact faithful_locate _ _

/-- A class in the second row that has another name than its file. -/
theorem places_faithful_second :
    let text := "<?php\nclass B \x7b\x7d\n"
    let v : Vantage := ⟨.flat [("A.php", Utf8.encode text)], []⟩
    let r := Reconciler.ofResolver (.table [("/A.php", ⟨"", "A"⟩)]) Php.parse
    let p := Path.ofPlace ["A.php"]
    12 ≤ (Utf8.encode text).length ∧ Position.ofOffset (Utf8.encode text) 12 = ⟨1, 6⟩ ∧
    (12 : Int) = Position.rowStart (Utf8.encode text) 1 + 6 ∧
    ∃ report notes, checkFile r v p = .ok (report, notes) ∧ report.findings ≠ [] ∧
      ∃ u, SourceUnit.ofFile v p.render none = .ok u ∧ ∀ x ∈ report.findings, x.start.key ≤ x.stop.key ∧
        x.start.offset (Utf8.encode u.text) = x.diagnostic.range.start ∧
        x.stop.offset (Utf8.encode u.text) = x.diagnostic.range.stop := by
  intro text v r p
  have hall := places_faithful (Utf8.encode text)
  have hlength : 12 ≤ (Utf8.encode text).length := by decide
  have hplace : Position.ofOffset (Utf8.encode text) 12 = ⟨1, 6⟩ := by decide
  have hoffset : (12 : Int) = Position.rowStart (Utf8.encode text) 1 + 6 := by
    have h := (hall.1 12 hlength).2.2.1
    rwa [show ((12 : Nat) : Int) = 12 from rfl, hplace] at h
  have hshort : Path.IsShort "A.php" := by decide
  have hv : v.Proper := ⟨Disk.named_flat (List.forall_mem_singleton.mpr hshort.toIsEntry), Disk.solid_nil _⟩
  have hholds : v.Holds p p (Utf8.encode text) := Vantage.holds_file hshort rfl
  obtain ⟨notes, hfile⟩ := checkFile_of_read hv (.table [("/A.php", ⟨"", "A"⟩)]) Php.parse
    (List.forall_mem_singleton.mpr hshort.toIsName) hholds.read
  have hfound : (diagnose (.table [("/A.php", ⟨"", "A"⟩)]) Php.parse p p (Utf8.encode text)).toOption.map
      List.isEmpty = some false := by
    decide +kernel
  rw [Vantage.placeOf_of_resolve hholds.resolve] at hfile
  cases hds : diagnose (.table [("/A.php", ⟨"", "A"⟩)]) Php.parse p p (Utf8.encode text) with
  | error e =>
      rw [hds] at hfound
      cases hfound
  | ok ds =>
      have hreport : checkFile r v p = .ok (⟨p, ds.map (locate (Utf8.encode text)), none⟩, notes) := by
        rw [hfile, show Path.ofPlace ["A.php"] = p from rfl, hds]
        rfl
      have hne : ds.map (locate (Utf8.encode text)) ≠ [] := by
        rintro heq
        rw [hds, List.map_eq_nil_iff.mp heq] at hfound
        cases hfound
      exact ⟨hlength, hplace, hoffset, _, notes, hreport, hne, hall.2.2.2 r v p _ notes hreport⟩

end Batch

end Namesake
