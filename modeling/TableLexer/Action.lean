import TableLexer.Pattern

/-!
# Actions

The small language that rules are written in. An action is a tree: its leaves consume input or
emit tokens, its inner nodes sequence and branch. Here are the trees; what they do to a lexer
is defined with the lexer.
-/
namespace TableLexer

inductive Action where
  /-- Emit the lexeme as a token. -/
  | enqueue (type : TokenType)
  /-- Run a named operation of the lexer. -/
  | send (message : String) (args : List Value)
  /-- Apply another rule. -/
  | subrule (name : String)
  /-- Send a message with the name of a state, then go on. -/
  | changeState (message state : String) (next : Action)
  /-- Branch on the lexeme. -/
  | onLexeme (pattern : Pattern) (hit : Action) (miss : Option Action)
  /-- Branch on a scan; a match is consumed. -/
  | onScan (pattern : Pattern) (hit : Action) (miss : Option Action)
  /-- All patterns must scan in turn, each followed by its action. -/
  | patterns (pairs : List (Pattern × Action))
  | sequence (actions : List Action)
  /-- Put the lexeme back. -/
  | putBack
  | clear
  /-- Give the token queued last another type, if it has the type `old`. -/
  | retype (old new : TokenType)
  deriving Repr

namespace Action

/-- Report the lexeme as unknown, which is what rules do by default. -/
def unknownToken : Action := send "unknown_token" []

def ofPatterns (pairs : List (Pattern × Action)) : Except LexError Action :=
  if pairs.isEmpty then .error (.plain .emptyPatternSequence) else .ok (patterns pairs)

def ofSequence (actions : List Action) : Except LexError Action :=
  if actions.isEmpty then .error (.plain .emptySequence) else .ok (sequence actions)

def children : Action → List Action
  | changeState _ _ next => [next]
  | onLexeme _ hit miss => hit :: miss.toList
  | onScan _ hit miss => hit :: miss.toList
  | patterns pairs => pairs.map Prod.snd
  | sequence actions => actions
  | _ => []

mutual

/-- The action followed by everything in it, depth first. -/
def walk : Action → List Action
  | enqueue t => [enqueue t]
  | send m args => [send m args]
  | subrule n => [subrule n]
  | changeState m s next => changeState m s next :: next.walk
  | onLexeme p hit miss => onLexeme p hit miss :: (hit.walk ++ walkOption miss)
  | onScan p hit miss => onScan p hit miss :: (hit.walk ++ walkOption miss)
  | patterns pairs => patterns pairs :: walkPairs pairs
  | sequence actions => sequence actions :: walkList actions
  | putBack => [putBack]
  | clear => [clear]
  | retype a b => [retype a b]

def walkOption : Option Action → List Action
  | none => []
  | some a => a.walk

def walkPairs : List (Pattern × Action) → List Action
  | [] => []
  | (_, a) :: rest => a.walk ++ walkPairs rest

def walkList : List Action → List Action
  | [] => []
  | a :: rest => a.walk ++ walkList rest

end

mutual

def sameAs : Action → Action → Bool
  | enqueue t, enqueue u => t == u
  | send m xs, send n ys => m == n && xs == ys
  | subrule m, subrule n => m == n
  | changeState m s a, changeState n t b => m == n && s == t && a.sameAs b
  | onLexeme p a x, onLexeme q b y => p.sameAs q && a.sameAs b && sameOption x y
  | onScan p a x, onScan q b y => p.sameAs q && a.sameAs b && sameOption x y
  | patterns xs, patterns ys => samePairs xs ys
  | sequence xs, sequence ys => sameList xs ys
  | putBack, putBack => true
  | clear, clear => true
  | retype a b, retype c d => a == c && b == d
  | _, _ => false

def sameOption : Option Action → Option Action → Bool
  | none, none => true
  | some a, some b => a.sameAs b
  | _, _ => false

def samePairs : List (Pattern × Action) → List (Pattern × Action) → Bool
  | [], [] => true
  | (p, a) :: xs, (q, b) :: ys => p.sameAs q && a.sameAs b && samePairs xs ys
  | _, _ => false

def sameList : List Action → List Action → Bool
  | [], [] => true
  | a :: xs, b :: ys => a.sameAs b && sameList xs ys
  | _, _ => false

end

/-- The messages that move the scan position back. -/
def rewinds (message : String) : Bool := message == "undo_scan" || message == "restore_snapshot"

mutual

/-- The rules an action may enter while no input is known to be consumed, in the order in which
it names them, and whether input is known to be consumed after the action. `guarded` tells
whether it is known before. A scan that matched guards what follows unless its pattern matches
the empty text; putting text back lifts the guard. -/
def unguarded (guarded : Bool) : Action → List String × Bool
  | enqueue _ => ([], guarded)
  | send m _ => ([], guarded && !rewinds m)
  | subrule name => (if guarded then [] else [name], guarded)
  | changeState _ _ next => next.unguarded guarded
  | onLexeme _ hit miss =>
    let (names, g) := hit.unguarded guarded
    let (names', g') := unguardedOption guarded miss
    (names ++ names', g && g')
  | onScan p hit miss =>
    let (names, g) := hit.unguarded (guarded || !p.matchesEmpty)
    let (names', g') := unguardedOption guarded miss
    (names ++ names', g && g')
  | patterns pairs => unguardedPairs guarded pairs
  | sequence actions => unguardedList guarded actions
  | putBack => ([], false)
  | clear => ([], guarded)
  | retype _ _ => ([], guarded)

def unguardedOption (guarded : Bool) : Option Action → List String × Bool
  | none => ([], guarded)
  | some a => a.unguarded guarded

def unguardedPairs (guarded : Bool) : List (Pattern × Action) → List String × Bool
  | [] => ([], guarded)
  | (p, a) :: rest =>
    let (names, g) := a.unguarded (guarded || !p.matchesEmpty)
    let (names', g') := unguardedPairs g rest
    (names ++ names', g')

def unguardedList (guarded : Bool) : List Action → List String × Bool
  | [] => ([], guarded)
  | a :: rest =>
    let (names, g) := a.unguarded guarded
    let (names', g') := unguardedList g rest
    (names ++ names', g')

end

end Action
end TableLexer
