import Namesake.Freshness
import Namesake.Proofs.JsonTable
import Namesake.Proofs.Utf8
import Namesake.Proofs.Verdict

/-! The record of checked files. A file counts as known exactly when the digest of its octets is recorded
for its true path; a record changes at one path at a time; and what is read back from the file of a record
are entries of this record. -/

namespace Namesake

open Text Json

namespace Vantage

variable {v : Vantage} {p q : Path}

theorem noNul_of_resolve (h : v.resolve p = .ok q) : p.names.any Path.holdsNul = false :=
  (resolve_eq_ok_iff.mp h).1

/-- What can be resolved can be read, or the system refuses. -/
theorem read_of_resolve (h : v.resolve p = .ok q) :
    (∃ data, v.read p = .ok data) ∨ ∃ e, v.read p = .error (.access e) := by
  rw [read, if_neg (by rw [noNul_of_resolve h]; decide)]
  cases v.disk.read v.cwd p with
  | ok data => exact .inl ⟨data, rfl⟩
  | error t => exact .inr ⟨_, rfl⟩

end Vantage

namespace Freshness

variable {v : Vantage} {p q : Path} {f f' : Freshness}

theorem key_of_resolve (h : v.resolve p = .ok q) : key v p = .ok q.render := by
  rw [key, h]
  rfl

/-- Whether a file is known can always be told: it is when the digest of its octets is what is recorded. -/
theorem exists_isFresh (f : Freshness) (h : v.resolve p = .ok q) :
    ∃ b, f.isFresh v p = .ok b ∧
      (b = true ↔ ∃ data, v.read p = .ok data ∧ Fields.get? q.render f.digests = some (Digest.sha256 data)) := by
  rw [isFresh, key_of_resolve h]
  dsimp only [bind, Except.bind]
  cases Fields.get? q.render f.digests with
  | none => exact ⟨false, rfl, nofun, nofun⟩
  | some recorded =>
      rcases Vantage.read_of_resolve h with ⟨data, hread⟩ | ⟨e, hread⟩
      · refine ⟨Digest.sha256 data == recorded, ?_, ?_⟩
        · simp only [digestOf, hread]
          rfl
        · rw [hread, beq_iff_eq]
          constructor
          · rintro rfl
            exact ⟨data, rfl, rfl⟩
          · rintro ⟨data', hdata, hsame⟩
            cases hdata
            exact (Option.some.inj hsame).symm
      · refine ⟨false, ?_, nofun, ?_⟩
        · simp only [digestOf, hread]
          rfl
        · rw [hread]
          exact nofun

theorem mark_of_holds {data : Octets} (f : Freshness) (h : v.Holds p q data) :
    f.mark v p = .ok ⟨Fields.set q.render (Digest.sha256 data) f.digests⟩ := by
  rw [mark, digestOf, h.read, key_of_resolve h.resolve]
  rfl

theorem forget_of_resolve (f : Freshness) (h : v.resolve p = .ok q) :
    f.forget v p = .ok ⟨Fields.erase q.render f.digests⟩ := by
  rw [forget, key_of_resolve h]
  rfl

/-- What is recorded has been read and resolved. -/
theorem holds_of_mark (h : f.mark v p = .ok f') : ∃ q data, v.Holds p q data := by
  rw [mark, digestOf, key] at h
  obtain ⟨d, hdigest, h⟩ := bind_eq_ok_iff.mp h
  obtain ⟨k, hkey, -⟩ := bind_eq_ok_iff.mp h
  obtain ⟨data, hread, -⟩ := map_eq_ok_iff.mp hdigest
  obtain ⟨q, hres, -⟩ := map_eq_ok_iff.mp hkey
  exact ⟨q, data, hread, hres⟩

/-- What is forgotten has been resolved. -/
theorem resolve_of_forget (h : f.forget v p = .ok f') : ∃ q, v.resolve p = .ok q := by
  rw [forget, key] at h
  obtain ⟨k, hkey, -⟩ := map_eq_ok_iff.mp h
  obtain ⟨q, hres, -⟩ := map_eq_ok_iff.mp hkey
  exact ⟨q, hres⟩

/-! ### The file of a record -/

theorem load_congr {v v' : Vantage} {file : Path} (h : v.read file = v'.read file) : load v file = load v' file := by
  rw [load, load, h]

theorem mem_withRows {found : Fields Value} {rows : Fields String} {entry : String × Value}
    (h : entry ∈ withRows found rows) : entry ∈ found ∨ ∃ row ∈ rows, entry = (row.1, .text row.2) := by
  induction rows generalizing found with
  | nil => exact .inl h
  | cons row rows ih =>
      rcases ih h with h | ⟨row', hrow', heq⟩
      · rcases mem_set h with rfl | h
        · exact .inr ⟨row, List.mem_cons_self, rfl⟩
        · exact .inl h
      · exact .inr ⟨row', List.mem_cons_of_mem _ hrow', heq⟩

/-- What is read back from the file of a record, as a table. -/
theorem load_of_read {file : Path} (h : v.read file = .ok f.content) :
    load v file = .quiet (.ok ⟨(withRows [] (sortRows f.digests)).map fun x => (x.1, plain x.2)⟩) := by
  have hparse : ((Utf8.decode? f.content).toOption.bind fun s => (Json.parse s).toOption) =
      some (.object (withRows [] (sortRows f.digests))) := by
    rw [content, Utf8.decode?_encode]
    exact congrArg Except.toOption (parse_renderTable f.digests)
  rw [load, h]
  simp only [hparse]

/-- What is read back from the file of a record are entries of this record. -/
theorem mem_of_load {file : Path} (hread : v.read file = .ok f.content) (h : (load v file).outcome = .ok f') :
    ∀ entry ∈ f'.digests, entry ∈ f.digests := by
  rw [load_of_read hread] at h
  cases h
  intro entry hentry
  obtain ⟨field, hfield, rfl⟩ := List.mem_map.mp hentry
  rcases mem_withRows hfield with hfield | ⟨row, hrow, rfl⟩
  · cases hfield
  · rw [plain]
    exact (List.mem_mergeSort).mp hrow

/-- A record with one entry for each file is read back with its entries in order. -/
theorem load_of_distinct {file : Path} (hread : v.read file = .ok f.content) (hkeys : (f.digests.map Prod.fst).Nodup) :
    load v file = .quiet (.ok ⟨sortRows f.digests⟩) := by
  have hsorted : ((sortRows f.digests).map Prod.fst).Nodup :=
    ((List.mergeSort_perm _ _).map Prod.fst).nodup_iff.mpr hkeys
  have hplain : ((sortRows f.digests).map fun row => (row.1, Value.text row.2)).map (fun x => (x.1, plain x.2)) =
      sortRows f.digests := by
    rw [List.map_map]
    exact List.map_id'' (fun row => rfl) _
  rw [load_of_read hread, @withRows_of_nodup [] _ hsorted, List.nil_append, hplain]

/-- A record with one entry for each file is read back with the same entries. -/
theorem get?_of_load {file : Path} (hread : v.read file = .ok f.content)
    (hkeys : (f.digests.map Prod.fst).Nodup) (h : (load v file).outcome = .ok f') :
    (f'.digests.map Prod.fst).Nodup ∧ ∀ k, Fields.get? k f'.digests = Fields.get? k f.digests := by
  have hperm : (sortRows f.digests).Perm f.digests := List.mergeSort_perm _ _
  have hsorted : ((sortRows f.digests).map Prod.fst).Nodup := (hperm.map Prod.fst).nodup_iff.mpr hkeys
  rw [load_of_distinct hread hkeys] at h
  cases h
  exact ⟨hsorted, fun k => get?_perm hsorted hperm k⟩

end Freshness

end Namesake
