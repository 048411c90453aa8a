import Namesake.Text.Split

/-!
File name patterns. A star stands for any characters, a question mark for one, and square brackets for
one character of a set or, after an exclamation mark, one outside it. Brackets that are not closed stand
for themselves. `matches` runs through the pattern once and keeps, for every piece of it, at which places
of the text the pieces so far may end.
-/

namespace Namesake.Glob

open Text

/-- A set of characters, or with `negated` the characters outside it, written as chunks with hyphens between
them. A hyphen spans a range from the last character before it to the first one after it. -/
structure CharSet where
  negated : Bool
  chunks : List (List Char)
  deriving DecidableEq, Repr, Inhabited

/-- A piece of a pattern. -/
inductive Piece where
  | many
  | one
  | char (c : Char)
  | set (s : CharSet)
  deriving DecidableEq, Repr, Inhabited

/-- Is the character listed? A hyphen with nothing before it stands for itself. -/
def CharSet.lists (c : Char) : List (List Char) → Bool
  | [] => false
  | [chunk] => chunk.contains c
  | chunk :: next :: rest =>
    chunk.contains c
      || (match chunk.getLast?, next.head? with
          | some lo, some hi => lo ≤ c && c ≤ hi
          | _, _ => c == '-')
      || lists c (next :: rest)

def CharSet.holds (s : CharSet) (c : Char) : Bool :=
  CharSet.lists c s.chunks != s.negated

/-- The chunks of the text in brackets, of which the first has at least `least` characters and the others
at least two. A hyphen at the end belongs to the last chunk. The first argument bounds the count. -/
def chunksFrom : Nat → Nat → List Char → List (List Char)
  | 0, _, cs => [cs]
  | count + 1, least, cs =>
    match cut '-' (cs.drop least) with
    | (_, none) => [cs]
    | (front, some rest) =>
      let chunk := cs.take least ++ front
      -- what follows a hyphen is the upper end of a range, so the next one is sought behind it
      if rest = [] then [chunk ++ ['-']] else chunk :: chunksFrom count 2 rest

/-- Chunks without empty ranges: where a hyphen spans a range that runs backwards, both its ends go and
what is left on either side is joined. Hyphens are looked at from the last one to the first. -/
def dropEmptyRanges : List (List Char) → List (List Char)
  | [] => []
  | chunk :: rest =>
    match dropEmptyRanges rest with
    | [] => [chunk]
    | next :: more =>
      match chunk.getLast?, next.head? with
      | some lo, some hi =>
        if hi < lo then (chunk.dropLast ++ next.drop 1) :: more else chunk :: next :: more
      | _, _ => chunk :: next :: more

def setOf (cs : List Char) : CharSet :=
  let least := if cs.head? = some '!' then 2 else 1
  match dropEmptyRanges (chunksFrom cs.length least cs) with
  | ('!' :: chunk) :: rest => ⟨true, chunk :: rest⟩
  | chunks => ⟨false, chunks⟩

/-- The text in brackets, after the opening one, and what follows the closing one. A closing bracket
at the front, or after an exclamation mark at the front, is part of the text. -/
def bracketed? (cs : List Char) : Option (List Char × List Char) :=
  let front : List Char :=
    match cs with
    | '!' :: ']' :: _ => ['!', ']']
    | '!' :: _ => ['!']
    | ']' :: _ => [']']
    | _ => []
  match cut ']' (cs.drop front.length) with
  | (inside, some rest) => some (front ++ inside, rest)
  | (_, none) => none

theorem length_of_bracketed? {cs inside rest : List Char} (h : bracketed? cs = some (inside, rest)) :
    rest.length < cs.length + 1 := by
  unfold bracketed? cut at h
  dsimp only at h
  split at h
  · rename_i x r heq
    split at heq
    · simp at heq
    · rename_i d r' hd
      simp only [Prod.mk.injEq, Option.some.injEq] at heq h
      have h1 : (d :: r').length ≤ _ := hd ▸ (List.dropWhile_sublist _).length_le
      simp only [List.length_cons, List.length_drop] at h1
      have : r'.length = rest.length := by rw [heq.2, h.2]
      omega
  · simp at h

def pieces : List Char → List Piece
  | [] => []
  | '*' :: rest => .many :: pieces rest
  | '?' :: rest => .one :: pieces rest
  | '[' :: rest =>
    match h : bracketed? rest with
    | some (inside, after) =>
      have := length_of_bracketed? h
      .set (setOf inside) :: pieces after
    | none => .char '[' :: pieces rest
  | c :: rest => .char c :: pieces rest
termination_by cs => cs.length

/-- Does the piece stand for this single character? -/
def Piece.fits : Piece → Char → Bool
  | .many, _ => false
  | .one, _ => true
  | .char d, c => c == d
  | .set s, c => s.holds c

/-- Every place at or after one that is marked. -/
def spread (seen : Bool) : List Bool → List Bool
  | [] => []
  | m :: ms => (seen || m) :: spread (seen || m) ms

/-- From the places where the pieces so far may end to those where the next one may end. There is one
mark more than there are characters. -/
def advance (text : List Char) (marks : List Bool) (p : Piece) : List Bool :=
  if p = .many then spread false marks
  else false :: (text.zip marks).map fun (c, m) => m && p.fits c

/-- Does the pattern describe the whole text? -/
def matchesChars (pattern text : List Char) : Bool :=
  let start := true :: text.map fun _ => false
  (((pieces pattern).foldl (advance text) start).getLast?).getD false

def isMatch (pattern text : String) : Bool :=
  matchesChars pattern.toList text.toList

/-- Does one of the patterns describe the path or the last name of it? -/
def matchesAny (path : String) (patterns : List String) : Bool :=
  let cs := path.toList
  let last := afterLast '/' cs
  patterns.any fun p => matchesChars p.toList cs || matchesChars p.toList last

end Namesake.Glob
