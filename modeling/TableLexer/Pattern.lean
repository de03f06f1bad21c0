import TableLexer.Error
import TableLexer.Regex.Meaning

/-!
# Patterns

What a rule looks for in the text: a character, a literal text, or a regular expression. All
three are matched at a place of the whole text; a regular expression sees what stands before
that place.
-/
namespace TableLexer

def Regex.compile (source : String) (lib : Regex.Library := .bundled) :
    Except RegexFault Regex :=
  match Regex.parse? lib source.toList with
  | none => .error .malformed
  | some r => if lib.fits source then .ok r else .error .tooLarge

/-- A regular expression with its source. `spansLines` says that a match may reach across
line breaks. -/
structure RegexPattern where
  source : String
  regex : Regex
  spansLines : Bool
  deriving DecidableEq, Repr

inductive Pattern where
  | char (c : Char)
  | literal (text : String)
  | regex (p : RegexPattern)
  deriving DecidableEq, Repr

namespace Pattern

/-- Whether a source starts with a group of flags, all turned on, that makes the dot match
line breaks. -/
def startsDotAll (source : List Char) : Bool :=
  match source with
  | '(' :: '?' :: rest =>
    let flags := rest.takeWhile Text.isAsciiLetter
    let next := (rest.dropWhile Text.isAsciiLetter).head?
    flags.contains 's' && (next == some ':' || next == some ')')
  | _ => false

def compiled (source : String) (spansLines : Bool) (lib : Regex.Library) :
    Except LexError Pattern :=
  match Regex.compile source lib with
  | .ok r => .ok (.regex ⟨source, r, spansLines⟩)
  | .error fault => .error (.plain (.badRegex source fault))

def ofRegex (source : String) (lib : Regex.Library := .bundled) : Except LexError Pattern :=
  compiled source (startsDotAll source.toList) lib

def multilineSource (source : String) : String := "(?s:" ++ source ++ ")"

/-- As `ofRegex`, but the dot matches line breaks and matches span lines. -/
def multiline (source : String) (lib : Regex.Library := .bundled) : Except LexError Pattern :=
  compiled (multilineSource source) true lib

def spansLines : Pattern → Bool
  | char c => c == '\n' || c == '\r'
  | literal text => Text.hasLineBreak text.toList
  | regex p => p.spansLines

def singleChar? : Pattern → Option Char
  | char c => some c
  | literal text =>
    match text.toList with
    | [c] => some c
    | _ => none
  | regex _ => none

/-- The length of the match that starts exactly at the place `i`; it may be zero. -/
def matchAt? (p : Pattern) (text : List Char) (i : Nat) : Option Nat :=
  if text.length < i then none
  else match p with
    | char c => if (text.drop i).head? = some c then some 1 else none
    | literal lit => if lit.toList.isPrefixOf (text.drop i) then some lit.toList.length else none
    | regex r => r.regex.matchAt? text i

/-- As `matchAt?`, but a match that consumes nothing does not count. -/
def consumedAt? (p : Pattern) (text : List Char) (i : Nat) : Option Nat :=
  (p.matchAt? text i).filter (0 < ·)

def matchesEmpty (p : Pattern) : Bool := p.matchAt? [] 0 == some 0

/-- Tests a text that was consumed before: characters and literals must be all of it, a regular
expression must occur in it. -/
def matchesLexeme (p : Pattern) (lexeme : List Char) : Bool :=
  match p with
  | char c => lexeme == [c]
  | literal lit => lexeme == lit.toList
  | regex r => r.regex.occursIn lexeme

def endsFrom (p : Pattern) (text : List Char) : Nat → Nat → List Nat
  | 0, _ => []
  | room + 1, i =>
    match p.consumedAt? text i with
    | some n => (i + n) :: endsFrom p text room (i + n)
    | none => endsFrom p text room (i + 1)

/-- The places where the matches end, each search starting where the last match ended. Empty
matches do not count. -/
def matchEnds (p : Pattern) (text : List Char) : List Nat := p.endsFrom text text.length 0

def source : Pattern → String
  | char c => String.ofList [c]
  | literal text => text
  | regex p => p.source

def display : Pattern → String
  | char c => Text.quoteChar c
  | literal text => Text.quoteText text
  | regex p => "/" ++ p.source ++ "/"

def sameAs : Pattern → Pattern → Bool
  | char a, char b => a == b
  | literal a, literal b => a == b
  | regex a, regex b => a.source == b.source && a.spansLines == b.spansLines
  | _, _ => false

def matchBytesAt? (p : Pattern) (text : List Char) (pos : Nat) : Option Nat :=
  match Text.placeAt? text pos with
  | none => none
  | some i => (p.matchAt? text i).map fun n => Text.byteLength (Text.slice text i (i + n))

def consumedBytesAt? (p : Pattern) (text : List Char) (pos : Nat) : Option Nat :=
  (p.matchBytesAt? text pos).filter (0 < ·)

def matchEndBytes (p : Pattern) (text : List Char) : List Nat :=
  (p.matchEnds text).map (Text.bytesBefore text)

end Pattern
end TableLexer
