import Namesake.Php.Token

/-!
Cuts a PHP text into tokens. The scanner keeps a stack of modes: outside the code, in code, in a string
that takes code, in a here-document. A step reads at least one character, says how many more belong to
it, and gives the modes that follow; `scan` therefore ends for every text.
-/

namespace Namesake.Php

namespace Lexer

/-- Where the scanner is: outside the code; in code, with this many braces open since the mode began; in a
string that takes code, up to a character; or in a here-document, up to a line with its label. -/
inductive Mode where
  | outside
  | code (depth : Nat)
  | quoted (close : Char)
  | document (label : List Char)
  deriving DecidableEq, Repr, Inhabited

/-- What a step has read: a token, or none for blanks and for the inside of a string, the count of
characters after the first, and the modes that follow. -/
structure Step where
  lexeme : Option Lexeme
  more : Nat
  modes : List Mode
  deriving Repr, Inhabited

/-- Is it one of the blanks that may stand before a piece of text? -/
def isBlank (c : Char) : Bool :=
  c == ' ' || ('\t' ≤ c && c ≤ '\r')

/-- Is it one of the characters beyond ASCII that count as blanks in code? -/
def isGap (c : Char) : Bool :=
  c == '\u00a0' || c == '\u200b' || c == '\u2060' || c == '\ufeff'

def isNameStart (c : Char) : Bool :=
  c == '_' || c.isAlpha || ('\u0080' ≤ c && !isGap c)

def isNamePart (c : Char) : Bool :=
  isNameStart c || c.isDigit

def isLineEnd (c : Char) : Bool :=
  c == '\n' || c == '\r'

/-- How many characters at the begin of a text are of a kind. -/
def run (p : Char → Bool) (cs : List Char) : Nat :=
  (cs.takeWhile p).length

/-- How many characters follow the begin of a comment that ends with its line, and is it the line end
that stops it? The tag that ends code stops it too. A question mark takes the character after it along,
so of two in front of `>` the second does not begin a tag. -/
def lineComment (n : Nat) : List Char → Nat × Bool
  | [] => (n, true)
  | '?' :: '>' :: _ => (n, false)
  | '?' :: '\n' :: _ => (n + 2, true)
  | '?' :: '\r' :: '\n' :: _ => (n + 3, true)
  | '?' :: '\r' :: _ => (n, true)
  | ['?'] => (n, true)
  | '?' :: _ :: cs => lineComment (n + 2) cs
  | c :: cs => if isLineEnd c then (n, true) else lineComment (n + 1) cs

/-- How many characters follow the begin of a comment up to and with its end mark, if it has one. -/
def blockComment (n : Nat) : List Char → Option Nat
  | '*' :: '/' :: _ => some (n + 2)
  | _ :: cs => blockComment (n + 1) cs
  | [] => none

/-- How many characters follow the begin of a string in single quotes, up to and with its end. -/
def singleQuoted (n : Nat) : List Char → Nat
  | [] => n
  | ['\\'] => n + 1
  | '\\' :: _ :: cs => singleQuoted (n + 2) cs
  | c :: cs => if c == '\'' then n + 1 else singleQuoted (n + 1) cs

/-- Does a character come that a string may end with? -/
def isClosed (close : Char) : List Char → Bool
  | [] => false
  | '\\' :: _ :: cs => isClosed close cs
  | c :: cs => c == close || isClosed close cs

/-- A line that a here-document may end with: blanks, its label, and no more of a name. The count is
that of blanks and label. -/
def endLine? (label cs : List Char) : Option Nat :=
  let blanks := run (fun c => c == ' ' || c == '\t') cs
  let rest := cs.drop blanks
  if label.isPrefixOf rest && !((rest.drop label.length).head?.any isNamePart) then
    some (blanks + label.length)
  else none

/-- How many characters a here-document without code has, its last line included. -/
def rawDocument (label : List Char) (n : Nat) : List Char → Nat
  | [] => n
  | c :: cs =>
    match isLineEnd c, endLine? label cs with
    | true, some k => n + 1 + k
    | _, _ => rawDocument label (n + 1) cs

/-- The begin of a here-document: the label that ends it, whether it takes no code, and the count of
characters before the end of its line. -/
structure Heading where
  label : List Char
  raw : Bool
  length : Nat
  deriving Repr, Inhabited

/-- Reads the begin of a here-document after its three angle brackets: a label, bare or in quotes, alone
on the line. -/
def heading? (cs : List Char) : Option Heading :=
  let blanks := run (fun c => c == ' ' || c == '\t') cs
  let rest := cs.drop blanks
  let mark := rest.head?.filter fun c => c == '"' || c == '\''
  let inner := if mark.isSome then rest.drop 1 else rest
  let label := inner.takeWhile isNamePart
  let after := inner.drop label.length
  -- the quote behind a label is the one in front of it
  let closed := mark.isNone || after.head? == mark
  let tail := if mark.isSome then after.drop 1 else after
  if !label.isEmpty && closed && tail.head?.any isLineEnd then
    some ⟨label, mark == some '\'', blanks + label.length + if mark.isSome then 2 else 0⟩
  else none

/-- Is it a digit or a mark that groups digits? -/
def isDigitPart (c : Char) : Bool :=
  c.isDigit || c == '_'

/-- Is it a digit of base sixteen or a mark that groups digits? -/
def isHexPart (c : Char) : Bool :=
  isDigitPart c || ('a' ≤ c && c ≤ 'f') || ('A' ≤ c && c ≤ 'F')

/-- How many characters an exponent has at the begin of a text. -/
def exponentLength : List Char → Nat
  | [] => 0
  | e :: cs =>
    let signs := run (fun c => c == '+' || c == '-') (cs.take 1)
    let digits := run isDigitPart (cs.drop signs)
    if (e == 'e' || e == 'E') && digits ≠ 0 then 1 + signs + digits else 0

/-- How many characters a fraction has at the begin of a text, its point included. -/
def fractionLength : List Char → Nat
  | '.' :: cs => match run isDigitPart cs with
    | 0 => 0
    | n => n + 1
  | _ => 0

/-- How many characters after the first belong to a number: the digits of another base after their
mark, or digits with a fraction and an exponent. -/
def numberMore (c : Char) (cs : List Char) : Nat :=
  let mark := (cs.head?.getD ' ').toLower
  if c == '0' && mark == 'x' then 1 + run isHexPart (cs.drop 1)
  else if c == '0' && (mark == 'b' || mark == 'o') then 1 + run isDigitPart (cs.drop 1)
  else
    let whole := run isDigitPart cs
    let fraction := if c == '.' then 0 else fractionLength (cs.drop whole)
    whole + fraction + exponentLength (cs.drop (whole + fraction))

/-- A step outside the code. Text is cut before every angle bracket, and blanks in front of a piece do
not belong to it. -/
def outsideStep (modes : List Mode) (c : Char) (cs : List Char) : Step :=
  match c, cs with
  | '<', '?' :: rest =>
    -- the tag may say that a value is put out, or name the language in any case
    let more := match rest with
      | '=' :: _ => 2
      | p :: h :: q :: _ => if [p, h, q].map Char.toLower = ['p', 'h', 'p'] then 4 else 1
      | _ => 1
    ⟨some .enter, more, modes.tail⟩
  | '<', _ => ⟨some .text, 0, modes⟩
  | _, _ => if isBlank c then ⟨none, 0, modes⟩ else ⟨some .text, run (· != '<') cs, modes⟩

/-- A step in a string or here-document: what may begin code begins with a brace or a dollar sign. -/
def insertionStep? (modes : List Mode) (c : Char) (cs : List Char) : Option Step :=
  match c, cs with
  | '{', '$' :: _ => some ⟨some (.opening .insertion), 0, .code 0 :: modes⟩
  | '$', '{' :: _ => some ⟨some (.opening .insertion), 1, .code 0 :: modes⟩
  | _, _ => none

def quotedStep (close : Char) (modes : List Mode) (c : Char) (cs : List Char) : Step :=
  if c == close then ⟨none, 0, modes.tail⟩
  else if c == '\\' then ⟨none, 1, modes⟩
  else (insertionStep? modes c cs).getD ⟨none, 0, modes⟩

def documentStep (label : List Char) (modes : List Mode) (c : Char) (cs : List Char) : Step :=
  if isLineEnd c then
    match endLine? label cs with
    | some k => ⟨none, k, modes.tail⟩
    | none => ⟨none, 0, modes⟩
  else if c == '\\' then ⟨none, if cs.head?.any isLineEnd then 0 else 1, modes⟩
  else (insertionStep? modes c cs).getD ⟨none, 0, modes⟩

/-- A step in code at a character that begins neither a name nor a number, with `depth` braces open and
the modes `outer` below. -/
def signStep (depth : Nat) (outer : List Mode) (c : Char) (cs : List Char) : Step :=
  let here := Mode.code depth :: outer
  let one (l : Lexeme) : Step := ⟨some l, 0, here⟩
  let line (n : Nat) (rest : List Char) (slashes : Bool) : Step :=
    let (more, broken) := lineComment n rest
    ⟨some (.comment (slashes && broken)), more, here⟩
  match c, cs with
  | '$', d :: _ =>
    if isNameStart d then ⟨some .varName, run isNamePart cs, here⟩ else one .sign
  | '\'', _ => ⟨some .quote, singleQuoted 0 cs, here⟩
  -- a quote that nothing closes begins no string, and the code goes on behind it
  | '"', _ => if isClosed '"' cs then ⟨some .quote, 0, .quoted '"' :: here⟩ else one .operator
  | '\x60', _ => if isClosed '\x60' cs then ⟨some .quote, 0, .quoted '\x60' :: here⟩ else one .operator
  | '<', '<' :: '<' :: rest =>
    match heading? rest with
    | some h =>
      let more := 2 + h.length
      -- without code inside, the document is read in this one step
      if h.raw then
        ⟨some .quote, more + rawDocument h.label 0 (cs.drop more), here⟩
      else ⟨some .quote, more, .document h.label :: here⟩
    | none => one .operator
  | '#', '[' :: _ => ⟨some .attribute, 1, here⟩
  -- the comment is empty: the tag that ends code may follow
  | '#', '?' :: _ => one (.comment false)
  | '#', _ => line 0 cs false
  | '/', '/' :: rest => line 1 rest true
  | '/', '*' :: rest =>
    match blockComment 1 rest with
    | some more => ⟨some (.comment false), more, here⟩
    | none => one .operator
  | '?', '>' :: _ => ⟨some .leave, 1, .outside :: here⟩
  | ':', ':' :: _ => ⟨some .scope, 1, here⟩
  | ':', _ => one .colon
  | ';', _ => one .semicolon
  | '\\', _ => one .separator
  | '(', _ => one (.opening .paren)
  | ')', _ => one (.closing .paren)
  | '[', _ => one (.opening .square)
  | ']', _ => one (.closing .square)
  | '{', _ => ⟨some (.opening .brace), 0, .code (depth + 1) :: outer⟩
  -- with no brace of its own open, code inside a string ends here
  | '}', _ =>
    if depth = 0 && !outer.isEmpty then ⟨some (.closing .insertion), 0, outer⟩
    else ⟨some (.closing .brace), 0, .code (depth - 1) :: outer⟩
  | _, _ => one (if ['-', '+', '!', '~', '@'].contains c then .sign else .operator)

theorem signStep_separator (depth : Nat) (outer : List Mode) (cs : List Char) :
    signStep depth outer '\\' cs = ⟨some .separator, 0, .code depth :: outer⟩ := by
  rw [signStep]

theorem signStep_semicolon (depth : Nat) (outer : List Mode) (cs : List Char) :
    signStep depth outer ';' cs = ⟨some .semicolon, 0, .code depth :: outer⟩ := by
  rw [signStep]

def codeStep (depth : Nat) (outer : List Mode) (c : Char) (cs : List Char) : Step :=
  let here := Mode.code depth :: outer
  if isBlank c || isGap c then ⟨none, 0, here⟩
  else if isNameStart c then
    let rest := cs.takeWhile isNamePart
    ⟨some (.word (String.ofList ((c :: rest).map Char.toLower))), rest.length, here⟩
  else if c.isDigit || (c == '.' && cs.head?.any Char.isDigit) then
    ⟨some .number, numberMore c cs, here⟩
  else signStep depth outer c cs

def step (modes : List Mode) (c : Char) (cs : List Char) : Step :=
  match modes with
  | .outside :: _ => outsideStep modes c cs
  | .quoted close :: _ => quotedStep close modes c cs
  | .document label :: _ => documentStep label modes c cs
  | .code depth :: outer => codeStep depth outer c cs
  | [] => codeStep 0 [] c cs

def width (cs : List Char) : Nat :=
  cs.foldl (fun n c => n + c.utf8Size) 0

/-- The tokens of a text in some modes, behind those already found. -/
def scan (modes : List Mode) (offset : Nat) (found : Array Token) : List Char → Array Token
  | [] => found
  | c :: cs =>
    let s := step modes c cs
    let stop := offset + c.utf8Size + width (cs.take s.more)
    let found := match s.lexeme with
      | some l => found.push ⟨l, offset, stop⟩
      | none => found
    scan s.modes stop found (cs.drop s.more)
termination_by cs => cs.length
decreasing_by simp only [List.length_drop, List.length_cons]; omega

end Lexer

/-- The tokens of a text, which begins outside the code. A byte order mark at the begin belongs to no
token. -/
def tokens (s : String) : List Token :=
  let modes := [.outside, .code 0]
  match s.toList with
  | '\ufeff' :: cs => (Lexer.scan modes ('\ufeff').utf8Size #[] cs).toList
  | cs => (Lexer.scan modes 0 #[] cs).toList

end Namesake.Php
