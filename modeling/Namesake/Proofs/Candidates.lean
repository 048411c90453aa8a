import Namesake.Proofs.Outcomes
import Namesake.Proofs.Ranking
import Namesake.Proofs.Straight

/-! The class names of a path, by a mapping from namespaces to directories. Where no link is on the way to the
root, to a directory or to the path, what counts is how they are spelled: the mapping gives one rule for each
directory, and the names of a path are those that the rules derive for the place it is spelled as. -/

namespace Namesake

/-- The directories of the types of a namespace, as they are declared. -/
inductive Directories where
  | one (dir : String)
  | several (dirs : List String)
  deriving DecidableEq, Repr, Inhabited

namespace Directories

def toList : Directories → List String
  | one dir => [dir]
  | several dirs => dirs

def toValue : Directories → Json.Value
  | one dir => .text dir
  | several dirs => .list (dirs.map .text)

theorem directories_toValue (ds : Directories) : Manifest.directories ds.toValue = .ok (ds.toList.map .text) := by
  cases ds <;> rfl

end Directories

/-- Namespaces with the directories of their types, in the order of their declaration. -/
abbrev Mapping := List (String × Directories)

namespace Mapping

def rows (m : Mapping) : Json.Fields Json.Value :=
  m.map fun row => (row.1, row.2.toValue)

/-- The rules of one namespace for a project at `root`, told from the spelling of its directories. -/
def rulesOf (root : Place) (row : String × Directories) : List Rule :=
  row.2.toList.map fun dir => ⟨Resolver.bareSpace row.1, Path.spelled root dir⟩

/-- One rule for each directory, in the order of their declaration. -/
def rules (m : Mapping) (root : Place) : List Rule :=
  m.flatMap (rulesOf root)

end Mapping

namespace Resolver

variable {v w : Vantage} {root : String} {m : Mapping}

/-- A mapping whose directories can be looked up without links on the way gives its rules. -/
theorem ofRules_eq (hcwd : ∀ n ∈ v.cwd, Path.IsEntry n) (hroot : v.disk.Straight v.cwd root)
    (hdirs : ∀ row ∈ m, ∀ dir ∈ row.2.toList, v.disk.Straight (Path.spelled v.cwd root) dir) :
    ofRules v (Path.ofString root) m.rows =
      .ok (.autoload (Path.ofPlace (Path.spelled v.cwd root)) (m.rules (Path.spelled v.cwd root))) := by
  have hbase : ∀ n ∈ Path.spelled v.cwd root, Path.holdsNul n = false :=
    fun n hn => (Disk.isEntry_of_mem_spelled hcwd hroot.noNul hn).noNul
  have hresolve := Vantage.resolve_of_straight hroot fun n hn => (hcwd n hn).notUp
  have hrow : ∀ row ∈ m, rulesFor v (Path.ofPlace (Path.spelled v.cwd root)) (row.1, row.2.toValue) =
      .ok (Mapping.rulesOf (Path.spelled v.cwd root) row) := by
    intro row hmem
    rw [rulesFor, Directories.directories_toValue]
    dsimp only
    rw [List.mapM_map]
    refine mapM_eq_ok fun dir hdir => ?_
    rw [Function.comp_apply, rule, Vantage.resolve_join_of_straight (hdirs row hmem dir hdir) hbase]
    rfl
  have hfound : m.rows.mapM (rulesFor v (Path.ofPlace (Path.spelled v.cwd root))) =
      .ok (m.map (Mapping.rulesOf (Path.spelled v.cwd root))) := by
    rw [Mapping.rows, List.mapM_map]
    exact mapM_eq_ok hrow
  rw [ofRules, hresolve]
  dsimp only [bind, Except.bind]
  rw [hfound]
  rfl

theorem candidates_of_straight {base : Place} {rules : List Rule} {path : String}
    (hbase : ∀ n ∈ base, Path.IsEntry n) (h : w.disk.Straight base path) :
    (autoload (Path.ofPlace base) rules).candidates w path = .ok (derived rules (Path.spelled base path)) := by
  rw [candidates, Vantage.resolve_join_of_straight h fun n hn => (hbase n hn).noNul]
  rfl

/-- A mapping whose root and directories can be looked up without links on the way gives a resolver. There is
one list of names for each place, and the names of a path are those of the place that the path is spelled as, on
whatever disk it is looked up later, if no link is on the way. The names of a place are those that some rule of
the mapping derives for it; each stands in the list once, and a name stands before another one only if the best
rule that derives it goes before the best rule that derives the other. -/
theorem candidates_ranked (hcwd : ∀ n ∈ v.cwd, Path.IsEntry n) (hroot : v.disk.Straight v.cwd root)
    (hdirs : ∀ row ∈ m, ∀ dir ∈ row.2.toList, v.disk.Straight (Path.spelled v.cwd root) dir) :
    let base := Path.spelled v.cwd root
    let rules := m.rules base
    ∃ r, ofRules v (Path.ofString root) m.rows = .ok r ∧ ∃ names : Place → List ClassName,
      (∀ (w : Vantage) path, w.disk.Straight base path →
        r.candidates w path = .ok (names (Path.spelled base path))) ∧
      ∀ p, (names p).Nodup ∧ (∀ c, c ∈ names p ↔ ∃ rule ∈ rules, rule.Derives p c) ∧
        (∀ c ∈ names p, ∃! a, Rule.IsBest rules p c a) ∧
        (names p).Pairwise fun x y => ∀ a b, Rule.IsBest rules p x a → Rule.IsBest rules p y b →
          Rule.Outranks a b := by
  intro base rules
  refine ⟨_, ofRules_eq hcwd hroot hdirs, derived rules, fun w path hpath => ?_, derived_ranked rules⟩
  exact candidates_of_straight (fun n hn => Disk.isEntry_of_mem_spelled hcwd hroot.noNul hn) hpath

/-- Two namespaces share a directory inside that of the first one, and all is spelled in a roundabout way. -/
theorem candidates_ranked_nested :
    let v : Vantage := ⟨.empty, ["home"]⟩
    let root := "./proj//x/.."
    let m : Mapping := [("\\Acme\\", .several ["src", "/home/proj/src//Sub/"]), ("Acme\\Sub", .one "../proj/./src")]
    let base := Path.spelled v.cwd root
    let rules := m.rules base
    ((∀ n ∈ v.cwd, Path.IsEntry n) ∧ v.disk.Straight v.cwd root ∧
      ∀ row ∈ m, ∀ dir ∈ row.2.toList, v.disk.Straight base dir) ∧
    rules = [⟨"Acme", ["home", "proj", "src"]⟩, ⟨"Acme", ["home", "proj", "src", "Sub"]⟩,
      ⟨"Acme\\Sub", ["home", "proj", "src"]⟩] ∧
    ∃ r, ofRules v (Path.ofString root) m.rows = .ok r ∧ ∃ names : Place → List ClassName,
      (∀ (w : Vantage) path, w.disk.Straight base path →
        r.candidates w path = .ok (names (Path.spelled base path))) ∧
      ∀ p, (names p).Nodup ∧ (∀ c, c ∈ names p ↔ ∃ rule ∈ rules, rule.Derives p c) ∧
        (∀ c ∈ names p, ∃! a, Rule.IsBest rules p c a) ∧
        (names p).Pairwise fun x y => ∀ a b, Rule.IsBest rules p x a → Rule.IsBest rules p y b →
          Rule.Outranks a b := by
  intro v root m base rules
  have hcwd : ∀ n ∈ v.cwd, Path.IsEntry n :=
    List.forall_mem_singleton.mpr ⟨⟨by decide, by decide, by decide⟩, by decide, by decide⟩
  have hroot : v.disk.Straight v.cwd root := Disk.straight_empty _ (by decide)
  have hdirs : ∀ row ∈ m, ∀ dir ∈ row.2.toList, v.disk.Straight base dir := by
    have hnul : ∀ row ∈ m, ∀ dir ∈ row.2.toList, Path.holdsNul dir = false := by decide
    exact fun row hrow dir hdir => Disk.straight_empty _ (hnul row hrow dir hdir)
  have hrules : rules = [⟨"Acme", ["home", "proj", "src"]⟩, ⟨"Acme", ["home", "proj", "src", "Sub"]⟩,
      ⟨"Acme\\Sub", ["home", "proj", "src"]⟩] := by decide +kernel
  exact ⟨⟨hcwd, hroot, hdirs⟩, hrules, candidates_ranked hcwd hroot hdirs⟩

end Resolver

end Namesake
