import Namesake.Proofs.FlatDisk
import Namesake.Proofs.Freshness

/-! Records that are saved and loaded. The file of a record holds its entries in the order of their names, so what is
loaded from it answers every question as the record did, and a second save finds the file as it is. -/

namespace Namesake

open Text

namespace Json

theorem sortRows_pairwise (rows : Fields String) : (sortRows rows).Pairwise fun a b => (!decide (b.1 < a.1)) = true := by
  refine List.pairwise_mergeSort (fun a b c hab hbc => ?_) (fun a b => ?_) rows
  · simp only [Bool.not_eq_true', decide_eq_false_iff_not, not_lt] at *
    exact hab.trans hbc
  · simp only [Bool.or_eq_true, Bool.not_eq_true', decide_eq_false_iff_not, not_lt]
    exact le_total a.1 b.1

theorem sortRows_sortRows (rows : Fields String) : sortRows (sortRows rows) = sortRows rows :=
  List.mergeSort_of_pairwise (sortRows_pairwise rows)

end Json

namespace Freshness

open Json

variable {v : Vantage} {file : Path} {d : Disk} {f f' : Freshness}

theorem content_sorted (f : Freshness) : content ⟨sortRows f.digests⟩ = f.content := by
  rw [content, content, renderTable, renderTable, sortRows_sortRows]

theorem isFresh_congr (h : ∀ k, Fields.get? k f'.digests = Fields.get? k f.digests) (w : Vantage) (p : Path) :
    f'.isFresh w p = f.isFresh w p := by
  simp only [isFresh, h]

/-- What a save has written is loaded without a note, with the same entries. So the record that is loaded has as many
entries and knows the same files on every disk, its file has the same content, and saving it again changes nothing. -/
theorem saved_loaded (h : (f.digests.map Prod.fst).Nodup) (hsave : f.save v file = .ok d) :
    ∃ f', load ⟨d, v.cwd⟩ file = .quiet (.ok f') ∧ f'.digests.Perm f.digests ∧ f'.size = f.size ∧
      (∀ w p, f'.isFresh w p = f.isFresh w p) ∧ f'.content = f.content ∧ f'.save ⟨d, v.cwd⟩ file = .ok d := by
  have hperm : (sortRows f.digests).Perm f.digests := List.mergeSort_perm _ _
  have hload : load ⟨d, v.cwd⟩ file = .quiet (.ok ⟨sortRows f.digests⟩) :=
    load_of_distinct (Vantage.read_of_write hsave) h
  have hkeys : ((sortRows f.digests).map Prod.fst).Nodup := (hperm.map Prod.fst).nodup_iff.mpr h
  refine ⟨_, hload, hperm, hperm.length_eq, isFresh_congr fun k => get?_perm hkeys hperm k, content_sorted f, ?_⟩
  rw [save, content_sorted]
  exact Vantage.write_of_write hsave

/-- Names with characters that are written as one letter, as one group of digits and as two. -/
def oddRecord : Freshness :=
  ⟨[("/p/\"\\\n.php", "b"), ("/p/\u00e9.php", "a"), ("/p/😀.php", "c\x01")]⟩

theorem saved_loaded_odd :
    (oddRecord.digests.map Prod.fst).Nodup ∧
      oddRecord.save ⟨.empty, []⟩ (Path.ofPlace ["cache"]) = .ok (Disk.empty.put ["cache"] (.file oddRecord.content)) ∧
      ∃ f', load ⟨Disk.empty.put ["cache"] (.file oddRecord.content), []⟩ (Path.ofPlace ["cache"]) = .quiet (.ok f') ∧
        f'.digests.Perm oddRecord.digests ∧ f'.size = oddRecord.size ∧
        (∀ w p, f'.isFresh w p = oddRecord.isFresh w p) ∧ f'.content = oddRecord.content ∧
        f'.save ⟨Disk.empty.put ["cache"] (.file oddRecord.content), []⟩ (Path.ofPlace ["cache"]) =
          .ok (Disk.empty.put ["cache"] (.file oddRecord.content)) :=
  have hkeys : (oddRecord.digests.map Prod.fst).Nodup := by decide
  have hsave : oddRecord.save ⟨.empty, []⟩ (Path.ofPlace ["cache"]) =
      .ok (Disk.empty.put ["cache"] (.file oddRecord.content)) :=
    Vantage.write_name ⟨⟨⟨by decide, by decide, by decide⟩, by decide, by decide⟩, by decide +kernel⟩ nofun
  ⟨hkeys, hsave, saved_loaded hkeys hsave⟩

end Freshness

end Namesake
