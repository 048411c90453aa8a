/-!
The tokens of a PHP text. Every token knows which octets it covers, so a tree built from tokens can say
where its nodes stand.
-/

namespace Namesake.Php

/-- What is opened and closed. -/
inductive Bracket where
  | brace
  | paren
  | square
  /-- Code put into a string. -/
  | insertion
  deriving DecidableEq, Repr, Inhabited

/-- What a token is. Only what bears on the outline of a text is told apart. -/
inductive Lexeme where
  | text
  | enter
  | leave
  /-- A comment; `broken` if it begins with two slashes and a line end stops it. -/
  | comment (broken : Bool)
  /-- A keyword or a name, its ASCII letters in lower case. -/
  | word (w : String)
  | varName
  | number
  /-- A string or its begin. -/
  | quote
  | opening (b : Bracket)
  | closing (b : Bracket)
  /-- The begin of a list of attributes; a square bracket ends it. -/
  | attribute
  | semicolon
  | colon
  | scope
  | separator
  /-- An operator that an expression may begin with. -/
  | sign
  /-- Any other character. -/
  | operator
  deriving DecidableEq, Repr, Inhabited

/-- A token and the octets it covers. -/
structure Token where
  lexeme : Lexeme
  start : Nat
  stop : Nat
  deriving DecidableEq, Repr, Inhabited

namespace Lexeme

def isComment : Lexeme → Bool
  | .comment _ => true
  | _ => false

def isWord : Lexeme → Bool
  | .word _ => true
  | _ => false

/-- May a statement begin with it? -/
def begins : Lexeme → Bool
  | .word _ | .varName | .number | .quote | .attribute | .separator | .sign => true
  | .opening .brace => false
  | .opening _ => true
  | _ => false

/-- Does it end the part of a clause that names the namespace? -/
def endsHeader : Lexeme → Bool
  | .semicolon | .leave | .opening .brace => true
  | _ => false

end Lexeme

end Namesake.Php
