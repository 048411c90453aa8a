import Namesake.Php.Lexer
import Namesake.Php.Outline

/-!
Reads a PHP text into a tree that shows what the library asks of one: the text and the tag in front of
the code, the namespace clauses and the declarations of types.
-/

namespace Namesake.Php

open Syntax Text

/-- The nodes in front of the code: the text, if there is some, and the tag that ends it. -/
def front (ts : List Token) : List Syntax.Node :=
  let texts := ts.takeWhile fun t => t.lexeme == .text
  let text := match texts.head?, texts.getLast? with
    | some first, some last => [.mk Tree.textKind first.start last.stop none []]
    | _, _ => []
  let tag := match ts[texts.length]? with
    | some t => [.mk Tree.tagKind t.start t.stop none []]
    | none => []
  text ++ tag

def parse (s : String) : Tree :=
  let ts := tokens s
  let source := Utf8.encode s
  ⟨source, .mk "program" 0 source.length none (front ts ++ (Outline.start.run ts).nodes)⟩

end Namesake.Php
