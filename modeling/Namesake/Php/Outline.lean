import Namesake.Php.Token
import Namesake.Syntax

/-!
The outline of a PHP text: its namespace clauses and type declarations, found by one pass over the tokens
with a stack of open brackets. A frame of the stack knows what kind of thing stands inside its bracket,
how far the present statement has come, and what has been found. Text that is no program is read on: a
bracket that nothing opened is overlooked, one that nothing closes gives what it holds to the bracket
around it, and tokens that fit nowhere are passed over.
-/

namespace Namesake.Php

open Syntax

/-- A piece of a text, from its first octet to the offset after its last one. -/
structure Extent where
  start : Nat
  stop : Nat
  deriving DecidableEq, Repr, Inhabited

/-- The head of a type: what is declared, absent for a type without a name; the offset of its first
attribute, modifier or keyword; and the name so far. -/
structure Head where
  kind : Option TypeKind
  start : Nat
  name : Option Extent
  deriving Repr, Inhabited

/-- The part of a clause that names the namespace. `joined` tells that a separator follows the name so
far. -/
structure Naming where
  keyword : Extent
  name : Option Extent
  joined : Bool
  deriving Repr, Inhabited

/-- How far a statement has come. -/
inductive Phase where
  /-- One may begin, at the attributes and modifiers that start at an offset, if there are any. The flag
  says whether there are modifiers. -/
  | ready (start : Option Nat) (modified : Bool)
  /-- Inside one; `whole` if it may end here. -/
  | busy (whole : Bool)
  /-- After the word for a new object. -/
  | creating
  | heading (h : Head)
  | naming (n : Naming)
  deriving Repr, Inhabited

/-- What stands inside a bracket. -/
inductive Content where
  | statements
  | members
  | expression
  deriving DecidableEq, Repr, Inhabited

/-- What a bracket is the body of, if it is the body of something that the outline shows. -/
inductive Owner where
  | nothing
  | type (kind : TypeKind) (start : Nat) (name : Extent)
  | clause (n : Naming)
  deriving Repr, Inhabited

/-- An open bracket, absent for the whole text: where it opens, what it is the body of, what stands inside,
how far the present statement has come, and what has been found inside, the last first. -/
structure Frame where
  bracket : Option Bracket
  start : Nat
  owner : Owner
  content : Content
  phase : Phase
  found : List Syntax.Node
  deriving Repr, Inhabited

namespace Content

def first : Content → Phase
  | .expression => .busy false
  | _ => .ready none false

/-- The phase after a pair of braces. -/
def afterBraces : Content → Phase
  | .expression => .busy true
  | _ => .ready none false

/-- The phase after a pair of parentheses. A statement may follow a condition; in a type a body may
follow parameters. -/
def afterParens : Content → Phase
  | .statements => .ready none false
  | _ => .busy true

def afterEnd (p : Phase) : Content → Phase
  | .expression => p
  | _ => .ready none false

/-- The phase after a colon or a tag, before which `p` was the phase. Among statements a colon may end a
label or a condition, and the tag that leaves the code ends a statement. -/
def afterColon (p : Phase) : Content → Phase
  | .statements => .ready none false
  | _ => p

end Content

namespace Frame

def clauseFront (n : Naming) : List Syntax.Node :=
  .mk "namespace" n.keyword.start n.keyword.stop none []
    :: n.name.toList.map fun e => .mk "namespace_name" e.start e.stop (some "name") []

/-- What the bracket around this one finds when this one ends at an offset. -/
def result (f : Frame) (stop : Nat) : List Syntax.Node :=
  let body (kind : String) : Syntax.Node := .mk kind f.start stop (some "body") f.found.reverse
  match f.owner with
  | .nothing => f.found
  | .type kind start name =>
    [.mk kind.nodeKind start stop none
      [.mk "name" name.start name.stop (some "name") [], body "declaration_list"]]
  | .clause n =>
    [.mk Tree.clauseKind n.keyword.start stop none (clauseFront n ++ [body "compound_statement"])]

def enter (f : Frame) (p : Phase) : Frame :=
  { f with phase := p }

/-- The frame with more nodes found, the last first. -/
def find (f : Frame) (nodes : List Syntax.Node) : Frame :=
  { f with found := nodes ++ f.found }

/-- The frame after a clause without a body that ends at an offset. -/
def endClause (f : Frame) (n : Naming) (stop : Nat) : Frame :=
  (f.find [.mk Tree.clauseKind n.keyword.start stop none (clauseFront n)]).enter (.ready none false)

/-- The frame after a clause that breaks off at an offset; without a name it is none. -/
def settle (f : Frame) (stop : Nat) : Frame :=
  match f.phase with
  | .naming n => if n.name.isSome && !n.joined then f.endClause n stop else f
  | _ => f

end Frame

/-- May a search for the begin of bracket `b` pass over the open bracket `other`? -/
def Bracket.passes (b other : Bracket) : Bool :=
  match b, other with
  | .insertion, _ => true
  | .brace, .insertion => false
  | .brace, _ => true
  | _, .brace => false
  | _, .insertion => false
  | _, _ => true

/-- How far the pass has come: the open brackets and the places at which something may be taken to end
that no token ends. -/
structure Outline where
  top : Frame
  outer : List Frame
  /-- The offset after the last token or comment. -/
  last : Nat
  /-- The same, save for comments after two slashes that a line end stops. -/
  anchor : Nat
  deriving Repr, Inhabited

namespace Outline

def start : Outline :=
  ⟨⟨none, 0, .nothing, .statements, .ready none false, []⟩, [], 0, 0⟩

def enter (o : Outline) (p : Phase) : Outline :=
  { o with top := o.top.enter p }

/-- Opens a bracket; `after` is the phase in which the frame around it goes on. -/
def opened (o : Outline) (b : Bracket) (t : Token) (owner : Owner) (content : Content) (after : Phase) :
    Outline :=
  { o with
    top := ⟨some b, t.start, owner, content, content.first, []⟩
    outer := o.top.enter after :: o.outer }

def openedExpression (o : Outline) (b : Bracket) (t : Token) (after : Phase) : Outline :=
  o.opened b t .nothing .expression after

/-- The frame that bracket `b` belongs to and those around it. Frames that are passed over give what they
hold to the frame around them. -/
def unwind (b : Bracket) (top : Frame) : List Frame → Option (Frame × List Frame)
  | [] => if top.bracket = some b then some (top, []) else none
  | f :: rest =>
    if top.bracket = some b then some (top, f :: rest)
    else if top.bracket.all b.passes then unwind b (f.find top.found) rest
    else none

/-- The phase after a bracket that nothing opened: it is passed over, and a statement may follow a brace
outside a clause. -/
def afterStray (b : Bracket) (f : Frame) : Phase :=
  match b, f.phase with
  | _, .naming n => .naming n
  | .brace, p => f.content.afterEnd p
  | _, p => p

def closed (o : Outline) (b : Bracket) (t : Token) : Outline :=
  match unwind b (o.top.settle o.last) o.outer with
  | some (f, p :: rest) => { o with top := p.find (f.result t.stop), outer := rest }
  | _ => o.enter (afterStray b o.top)

/-- The words after which something has to follow. -/
def openWords : List String := [
  "abstract", "and", "as", "break", "case", "class", "clone", "const", "continue", "declare", "do", "echo",
  "else", "elseif", "enum", "extends", "final", "fn", "for", "foreach", "function", "global", "goto", "if",
  "implements", "include", "include_once", "instanceof", "insteadof", "interface", "namespace", "new", "or",
  "print", "readonly", "require", "require_once", "return", "static", "switch", "throw", "trait", "try",
  "use", "var", "while", "xor", "yield"]

def isPlainWord : Lexeme → Bool
  | .word w => !openWords.contains w
  | _ => false

def inside (o : Outline) (t : Token) : Outline :=
  let c := o.top.content
  match t.lexeme with
  | .text | .comment _ => o
  | .enter | .leave => o.enter (c.afterColon o.top.phase)
  | .word w => o.enter (if w = "new" then .creating else .busy (!openWords.contains w))
  | .varName | .number | .quote => o.enter (.busy true)
  | .scope | .separator | .sign | .operator => o.enter (.busy false)
  | .semicolon => o.enter (c.afterEnd (.busy false))
  | .colon => o.enter (c.afterColon (.busy false))
  | .opening .brace => o.opened .brace t .nothing .statements c.afterBraces
  | .opening .paren => o.openedExpression .paren t c.afterParens
  | .opening b => o.openedExpression b t (.busy true)
  | .attribute => o.openedExpression .square t (.busy false)
  | .closing b => o.closed b t

def modifiers : List String := ["abstract", "final", "readonly"]

def memberWords : List String :=
  modifiers ++ ["public", "protected", "private", "static", "var", "const", "function", "use", "case"]

def kindOf? (w : String) : Option TypeKind :=
  TypeKind.all.find? fun k => k.word = w

/-- May a head of a type go on with the token that follows its keyword? -/
def goesOn : Option Lexeme → Bool
  | some (.word _) | some .varName | some .number | some .sign | some .operator => true
  | _ => false

/-- A word where a statement may begin; `start` and `modified` tell of attributes and modifiers in front of it
and `next` is the token after it. Classes alone have modifiers. -/
def begun (o : Outline) (w : String) (t : Token) (next : Option Lexeme) (start : Option Nat)
    (modified : Bool) : Outline :=
  match kindOf? w with
  | some kind =>
    if goesOn next then
      let start := if modified && kind != .classType then none else start
      o.enter (.heading ⟨some kind, start.getD t.start, none⟩)
    else o.enter (.busy false)
  | none =>
    if w = "namespace" && next != some .separator then
      o.enter (.naming ⟨⟨t.start, t.stop⟩, none, false⟩)
    else if modifiers.contains w then o.enter (.ready (some (start.getD t.start)) true)
    else if w = "else" || w = "do" then o.enter (.ready none false)
    else o.inside t

/-- A token where a statement may begin. An operator that none begins with is passed over. -/
def between (o : Outline) (t : Token) (next : Option Lexeme) (start : Option Nat) (modified : Bool) :
    Outline :=
  match t.lexeme with
  | .word w => o.begun w t next start modified
  | .attribute => o.openedExpression .square t (.ready (some (start.getD t.start)) modified)
  | .operator => o.enter (.ready none false)
  | _ => o.inside t

/-- A token where a member of a type may begin. What begins none is passed over. -/
def betweenMembers (o : Outline) (t : Token) : Outline :=
  match t.lexeme with
  | .word w => if memberWords.contains w then o.enter (.busy false) else o
  | .attribute => o.openedExpression .square t o.top.phase
  | .closing b => o.closed b t
  | _ => o

def afterNew (o : Outline) (t : Token) : Outline :=
  match t.lexeme with
  | .word w =>
    if w = TypeKind.classType.word then o.enter (.heading ⟨none, t.start, none⟩)
    else if modifiers.contains w then o
    else o.inside t
  | .attribute => o.openedExpression .square t .creating
  | _ => o.inside t

/-- A token in the head of a type. The first word is the name; what does not fit is passed over. -/
def inHead (o : Outline) (h : Head) (t : Token) : Outline :=
  match t.lexeme, h.kind, h.name with
  | .word _, some _, none => o.enter (.heading { h with name := some ⟨t.start, t.stop⟩ })
  -- a type without a name has members, but the outline does not show it
  | .opening .brace, none, _ => o.opened .brace t .nothing .members o.top.content.afterBraces
  | .opening .brace, some kind, some name =>
    o.opened .brace t (.type kind h.start name) .members o.top.content.afterBraces
  | .opening .brace, _, _ | .quote, some _, none | .semicolon, _, _ | .closing _, _, _ => o.inside t
  | .opening b, _, _ => o.openedExpression b t (.heading h)
  | .attribute, _, _ => o.openedExpression .square t (.heading h)
  | _, _, _ => o

/-- The octets of the longest token that is passed over in front of what ends a clause. -/
def strayLimit : Nat := 9

/-- Is a token in a clause rather passed over than the clause ended before it? So it is with one short
token alone in front of what ends the clause, with a name in front of another word, and with what no
statement begins with. -/
def isOverlooked (n : Naming) (t : Token) (next : Option Lexeme) : Bool :=
  n.joined || n.name.isNone || !t.lexeme.begins
    || (next.any Lexeme.endsHeader && t.stop - t.start ≤ strayLimit)
    || (isPlainWord t.lexeme && next.any Lexeme.isWord)

/-- A token in a clause that does not belong to it: it is passed over, or the clause ends where the last
token did. -/
def strayed (o : Outline) (n : Naming) (t : Token) (next : Option Lexeme) : Outline :=
  if isOverlooked n t next then o
  else ({ o with top := o.top.endClause n o.last }).between t next none false

def inClause (o : Outline) (n : Naming) (t : Token) (next : Option Lexeme) : Outline :=
  match t.lexeme, n.name with
  | .word _, none => o.enter (.naming { n with name := some ⟨t.start, t.stop⟩ })
  -- the word was part of a name that begins with it, and no clause
  | .separator, none => o.enter (.busy false)
  | .separator, some _ => o.enter (.naming { n with joined := true })
  | .semicolon, some _ => { o with top := o.top.endClause n t.stop }
  -- the tag ends the clause in front of itself, and of a comment that reached it by a line end
  | .leave, some _ => { o with top := o.top.endClause n o.anchor }
  | .semicolon, none | .leave, none => o.enter (.ready none false)
  | .opening .brace, _ =>
    o.opened .brace t (.clause n) .statements o.top.content.afterBraces
  | .closing b, _ => o.closed b t
  | .word _, some e =>
    if n.joined then o.enter (.naming { n with name := some ⟨e.start, t.stop⟩, joined := false })
    else o.strayed n t next
  | _, _ => o.strayed n t next

def declares (w : String) : Bool :=
  (kindOf? w).isSome || modifiers.contains w || w = "namespace"

/-- A token of the code in the phase and among the things where it stands. A declaration may begin also
where a semicolon is missing before it. -/
def coded (o : Outline) (t : Token) (next : Option Lexeme) : Outline :=
  match o.top.phase, o.top.content with
  | .ready start modified, .statements => o.between t next start modified
  | .ready _ _, .members => o.betweenMembers t
  | .ready _ _, .expression => o.inside t
  -- two words in a row do not belong to one expression
  | .busy true, .statements =>
    match t.lexeme, next with
    | .word w, some (.word _) => if declares w then o.begun w t next none false else o.inside t
    | _, _ => o.inside t
  | .busy _, _ => o.inside t
  | .creating, _ => o.afterNew t
  | .heading h, _ => o.inHead h t
  | .naming n, _ => o.inClause n t next

/-- The outline after a token, of which `rest` are those that follow. -/
def step (o : Outline) (t : Token) (rest : List Token) : Outline :=
  match t.lexeme with
  | .comment broken => { o with last := t.stop, anchor := if broken then o.anchor else t.stop }
  | _ =>
    let next := (rest.find? fun t => !t.lexeme.isComment).map Token.lexeme
    { o.coded t next with last := t.stop, anchor := t.stop }

def run (o : Outline) : List Token → Outline
  | [] => o
  | t :: rest => run (o.step t rest) rest

/-- May the text end where a frame has come to, were its bracket closed? -/
def isWhole (f : Frame) : Bool :=
  match f.bracket, f.phase with
  | some .brace, .ready none _ => true
  | _, _ => false

/-- What is found at the end of a text. Braces are closed there as long as no statement is cut off. -/
def finish (last : Nat) (top : Frame) : List Frame → List Syntax.Node
  | [] => (top.settle last).found.reverse
  | f :: rest =>
    let top := top.settle last
    if isWhole top then finish last (f.find (top.result last)) rest
    else finish last ((f.find top.found).enter (.busy false)) rest

def nodes (o : Outline) : List Syntax.Node :=
  finish o.last o.top o.outer

end Outline

end Namesake.Php
