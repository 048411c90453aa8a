import Namesake.Text.Split

/-!
Words of a command line. A word that begins with a dash names options: two dashes and a name, perhaps
with a value after an equals sign, or one dash and letters, of which the last may take the rest of the
word as its value. An option without a value of its own takes the next word. After a word of two dashes
alone no word is an option.
-/

namespace Namesake.Host

open Text

/-- An option. `complete` is the contrary of `incremental`. -/
inductive Key where
  | root
  | included
  | excluded
  | incremental
  | complete
  | dryRun
  | verbose
  | help
  deriving DecidableEq, Repr, Inhabited

def Key.takesValue : Key → Bool
  | .root => true
  | .included => true
  | .excluded => true
  | _ => false

def Key.long : Key → String
  | .root => "root"
  | .included => "include"
  | .excluded => "exclude"
  | .incremental => "incremental"
  | .complete => "no-incremental"
  | .dryRun => "dry-run"
  | .verbose => "verbose"
  | .help => "help"

def Key.letter : Key → Option Char
  | .root => some 'r'
  | .verbose => some 'v'
  | .help => some 'h'
  | _ => none

/-- What a word means: it is no option, an option with its value, or one that takes none. -/
inductive Word where
  | plain (s : String)
  | value (k : Key) (s : String)
  | flag (k : Key)
  deriving DecidableEq, Repr, Inhabited

/-- What is left to do after some letters: nothing, or to find the value of the last one. -/
inductive Letters where
  | done (words : List Word)
  | owing (words : List Word) (k : Key)
  deriving DecidableEq, Repr, Inhabited

/-- Reads letters after a dash. -/
def readLetters (keys : List Key) : List Char → Option Letters
  | [] => some (.done [])
  | c :: rest =>
    match keys.find? fun k => k.letter = some c with
    | none => none
    | some k =>
      if k.takesValue then
        some (if rest = [] then .owing [] k else .done [.value k (String.ofList rest)])
      else
        match readLetters keys rest with
        | none => none
        | some (.done ws) => some (.done (.flag k :: ws))
        | some (.owing ws k') => some (.owing (.flag k :: ws) k')

/-- Reads a word that begins with a dash; nothing if it names no option of `keys`. -/
def readOption (keys : List Key) : List Char → Option Letters
  | '-' :: '-' :: cs =>
    let (name, given) := cut '=' cs
    match keys.find? fun k => k.long = String.ofList name with
    | none => none
    | some k =>
      match k.takesValue, given with
      | true, some v => some (.done [.value k (String.ofList v)])
      | true, none => some (.owing [] k)
      | false, some _ => none
      | false, none => some (.done [.flag k])
  | '-' :: cs => readLetters keys cs
  | _ => none

def isOption (s : String) : Bool :=
  match s.toList with
  | '-' :: _ :: _ => true
  | _ => false

/-- Reads the words of a command with options `keys`. Without `mixed`, options end at the first plain
word. -/
def readWords (keys : List Key) (mixed : Bool) : List String → Option (List Word)
  | [] => some []
  | s :: rest =>
    if s = "--" then some (rest.map .plain)
    else if isOption s then
      match readOption keys s.toList with
      | none => none
      | some (.done ws) => (readWords keys mixed rest).map (ws ++ ·)
      | some (.owing ws k) =>
        match rest with
        | [] => none
        | v :: rest => (readWords keys mixed rest).map fun more => ws ++ .value k v :: more
    else if mixed then (readWords keys mixed rest).map (.plain s :: ·)
    else some (.plain s :: rest.map .plain)

def plainWords (ws : List Word) : List String :=
  ws.filterMap fun
    | .plain s => some s
    | _ => none

def valuesOf (k : Key) (ws : List Word) : List String :=
  ws.filterMap fun
    | .value k' s => if k' = k then some s else none
    | _ => none

def holds (k : Key) (ws : List Word) : Bool :=
  ws.contains (.flag k)

/-- Of two options that contradict each other, is `yes` the last one that is given? -/
def prevails (yes no : Key) (ws : List Word) : Bool :=
  let given := ws.filter fun w => w = .flag yes ∨ w = .flag no
  given.getLast? = some (.flag yes)

end Namesake.Host
