import Namesake.Text.Utf8

/-!
Syntax trees and the few things that are asked of them: the first namespace clause, the first
declaration of a type, and the extent of the text before the code. `firstIn` searches a stack of nodes
and puts the children of a node before what is left, so the nodes are met in document order.
-/

namespace Namesake.Syntax

open Text

/-- A node: its kind, the octets from `start` up to `stop`, the name by which its parent knows it, and
its children. -/
inductive Node where
  | mk (kind : String) (start stop : Nat) (field : Option String) (children : List Node)
  deriving Repr, Inhabited

namespace Node

def kind : Node → String
  | .mk k _ _ _ _ => k

def start : Node → Nat
  | .mk _ s _ _ _ => s

def stop : Node → Nat
  | .mk _ _ s _ _ => s

def field : Node → Option String
  | .mk _ _ _ f _ => f

def children : Node → List Node
  | .mk _ _ _ _ cs => cs

/-- The first child known by a name. -/
def child? (n : Node) (name : String) : Option Node :=
  n.children.find? fun c => c.field = some name

mutual

def size : Node → Nat
  | .mk _ _ _ _ cs => 1 + sizeAll cs

def sizeAll : List Node → Nat
  | [] => 0
  | n :: ns => size n + sizeAll ns

end

theorem sizeAll_append (xs ys : List Node) : sizeAll (xs ++ ys) = sizeAll xs + sizeAll ys := by
  induction xs with
  | nil => simp [sizeAll]
  | cons x xs ih => simp [sizeAll, ih, Nat.add_assoc]

theorem sizeAll_children_lt (n : Node) : sizeAll n.children < size n := by
  cases n
  simp [children, size]

theorem size_le_sizeAll {n : Node} {ns : List Node} (h : n ∈ ns) : size n ≤ sizeAll ns := by
  induction ns with
  | nil => cases h
  | cons m ns ih =>
      rw [sizeAll]
      rcases List.mem_cons.mp h with rfl | h
      · exact Nat.le_add_right _ _
      · exact Nat.le_trans (ih h) (Nat.le_add_left _ _)

theorem size_lt_of_mem_children {c n : Node} (h : c ∈ n.children) : size c < size n :=
  Nat.lt_of_le_of_lt (size_le_sizeAll h) (sizeAll_children_lt n)

/-- The first node of the wanted kinds in a stack of trees. -/
def firstIn (wanted : String → Bool) : List Node → Option Node
  | [] => none
  | n :: rest =>
    if wanted n.kind then some n else firstIn wanted (n.children ++ rest)
termination_by stack => sizeAll stack
decreasing_by
  have := sizeAll_children_lt n
  simp only [sizeAll_append, sizeAll]
  omega

theorem firstIn_nil (wanted : String → Bool) : firstIn wanted [] = none := by
  rw [firstIn]

theorem firstIn_cons (wanted : String → Bool) (n : Node) (rest : List Node) :
    firstIn wanted (n :: rest) = if wanted n.kind then some n else firstIn wanted (n.children ++ rest) := by
  rw [firstIn]

/-- The first node of the wanted kinds, in document order. -/
def first? (kinds : List String) (n : Node) : Option Node :=
  firstIn (fun k => kinds.contains k) [n]

mutual

/-- The nodes in document order, each before its children. -/
def preorder : Node → List Node
  | .mk k s e f cs => .mk k s e f cs :: preorderAll cs

def preorderAll : List Node → List Node
  | [] => []
  | n :: ns => preorder n ++ preorderAll ns

end

theorem preorderAll_eq_flatMap (ns : List Node) : preorderAll ns = ns.flatMap preorder := by
  induction ns with
  | nil => rfl
  | cons n ns ih => rw [preorderAll, ih, List.flatMap_cons]

theorem preorder_eq_cons (n : Node) : n.preorder = n :: n.children.flatMap preorder := by
  cases n
  rw [preorder, preorderAll_eq_flatMap]
  rfl

end Node

/-- A text in octets with its tree. -/
structure Tree where
  source : Octets
  root : Node
  deriving Repr, Inhabited

/-- A clause that names the namespace of what follows, or the global one if it has no name. Its header, up
to `headerStop`, is the part that names it; with braces a body follows. -/
structure Clause where
  start : Int
  stop : Int
  headerStop : Int
  name : Option String
  braced : Bool
  deriving DecidableEq, Repr, Inhabited

/-- The kinds of types that are declared. -/
inductive TypeKind where
  | classType
  | interface
  | trait
  | enum
  deriving DecidableEq, Repr, Inhabited

namespace TypeKind

def all : List TypeKind := [.classType, .interface, .trait, .enum]

def word : TypeKind → String
  | .classType => "class"
  | .interface => "interface"
  | .trait => "trait"
  | .enum => "enum"

/-- The kind of the nodes that declare a type. -/
def nodeKind (k : TypeKind) : String :=
  k.word ++ "_declaration"

def ofNodeKind? (s : String) : Option TypeKind :=
  all.find? fun k => k.nodeKind = s

end TypeKind

/-- A name in a text. -/
structure NameAt where
  start : Int
  text : String
  deriving DecidableEq, Repr, Inhabited

/-- The declaration of a type. -/
structure Declaration where
  kind : TypeKind
  start : Int
  stop : Int
  name : Option NameAt
  deriving DecidableEq, Repr, Inhabited

namespace Tree

/-- The kind of a namespace clause. -/
def clauseKind : String := "namespace_definition"

/-- The kind of a tag that begins code. -/
def tagKind : String := "php_tag"

/-- The kind of text outside code. -/
def textKind : String := "text"

/-- The text between two offsets, ill-formed pieces replaced. -/
def slice (t : Tree) (start stop : Nat) : String :=
  Utf8.decodeLossy ((t.source.take stop).drop start)

def textOf (t : Tree) (n : Node) : String :=
  t.slice n.start n.stop

/-- Where the part of a clause ends that names the namespace. A clause without a name and with braces
has only its keyword before them. -/
def headerStop (n : Node) : Nat :=
  match n.child? "body", n.child? "name" with
  | none, _ => n.stop
  | some _, some name => name.stop
  | some _, none => (n.children.head?.map Node.stop).getD n.stop

def clause? (t : Tree) : Option Clause :=
  (t.root.first? [clauseKind]).map fun n =>
    { start := n.start
      stop := n.stop
      headerStop := headerStop n
      name := (n.child? "name").map t.textOf
      braced := (n.child? "body").isSome }

def declaration? (t : Tree) : Option Declaration :=
  (t.root.first? (TypeKind.all.map TypeKind.nodeKind)).bind fun n =>
    (TypeKind.ofNodeKind? n.kind).map fun kind =>
      { kind := kind
        start := n.start
        stop := n.stop
        name := (n.child? "name").map fun m => ⟨m.start, t.textOf m⟩ }

/-- Where the text before the code ends, among the nodes `ns`: after the first tag if only text stands
before it, else after the last text in front. -/
def leadingStop (last : Option Nat) : List Node → Option Nat
  | [] => last
  | n :: ns =>
    if n.kind = tagKind then some n.stop
    else if n.kind = textKind then leadingStop (some n.stop) ns
    else last

/-- Where the text before the code ends, its tag included; nothing if the tree begins with code. -/
def leading? (t : Tree) : Option Nat :=
  leadingStop none t.root.children

def leadingSpan? (t : Tree) : Option (Nat × Nat) :=
  t.leading?.map fun stop => (0, stop)

end Tree

end Namesake.Syntax
