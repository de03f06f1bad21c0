import TableLexer.Regex.Basic
import TableLexer.Regex.Parser

/-!
# What a source means

The tree of a source becomes a regular expression under the flags in force. A change of flags
lasts to the end of the group it stands in, also across alternatives. Without the flag
`unicode` the language is confined to what cannot split a character: ASCII classes, and no
complements.

Properties and the limit on sizes come from a library, about which nothing is assumed. The one that
comes with the program knows the properties there are tables of, and it guesses sizes: the states of
an automaton are counted roughly and compared with a bound.
-/
namespace TableLexer.Regex

/-- What a library of expressions brings along besides its syntax: the set that a property names,
given as it is written behind `\p`, and whether what a source is compiled to stays within the limit
on its size. -/
structure Library where
  property? : (ignoreCase : Bool) → (name : List Char) → Option CharSet
  fits : String → Bool

structure Flags where
  ignoreCase : Bool := false
  multiLine : Bool := false
  dotAll : Bool := false
  swapGreed : Bool := false
  unicode : Bool := true
  crlf : Bool := false
  deriving DecidableEq, Repr

def Flags.set (f : Flags) : Flag → Bool → Flags
  | .ignoreCase, b => { f with ignoreCase := b }
  | .multiLine, b => { f with multiLine := b }
  | .dotAll, b => { f with dotAll := b }
  | .swapGreed, b => { f with swapGreed := b }
  | .unicode, b => { f with unicode := b }
  | .crlf, b => { f with crlf := b }
  | .verbose, _ => f

def Flags.change (f : Flags) (change : FlagChange) : Flags :=
  change.foldl (fun f (flag, b) => f.set flag b) f

def AsciiClass.ranges : AsciiClass → List (Char × Char)
  | alnum => [('0', '9'), ('A', 'Z'), ('a', 'z')]
  | alpha => [('A', 'Z'), ('a', 'z')]
  | ascii => [('\x00', '\x7f')]
  | blank => [('\t', '\t'), (' ', ' ')]
  | cntrl => [('\x00', '\x1f'), ('\x7f', '\x7f')]
  | digit => [('0', '9')]
  | graph => [('!', '~')]
  | lower => [('a', 'z')]
  | print => [(' ', '~')]
  | punct => [('!', '/'), (':', '@'), ('[', '\x60'), ('{', '~')]
  | space => [('\t', '\r'), (' ', ' ')]
  | upper => [('A', 'Z')]
  | word => [('0', '9'), ('A', 'Z'), ('_', '_'), ('a', 'z')]
  | xdigit => [('0', '9'), ('A', 'F'), ('a', 'f')]

def AsciiClass.set (c : AsciiClass) : CharSet := .ofRanges c.ranges

namespace Flags

def folded (f : Flags) (s : CharSet) : CharSet :=
  if f.ignoreCase then if f.unicode then .fold s else .asciiFold s else s

/-- Complements are refused outside Unicode: they would contain parts of characters. -/
def negated? (f : Flags) (negated : Bool) (s : CharSet) : Option CharSet :=
  if negated then if f.unicode then some (.compl s) else none else some s

def inClass? (f : Flags) (c : Char) : Bool := f.unicode || c.toNat < 128

def shorthand (f : Flags) : Shorthand → CharSet
  | .digit => if f.unicode then .digit else AsciiClass.digit.set
  | .space => if f.unicode then .space else AsciiClass.space.set
  | .word => if f.unicode then .word else AsciiClass.word.set

def property? (f : Flags) (lib : Library) (name : List Char) (negated : Bool) : Option CharSet :=
  if f.unicode then (lib.property? f.ignoreCase name).bind (f.negated? negated) else none

def dot? (f : Flags) : Option CharSet :=
  if !f.unicode then none
  else if f.dotAll then some .any
  else if f.crlf then some (.compl (.ofRanges [('\n', '\n'), ('\r', '\r')]))
  else some (.compl (.singleton '\n'))

def literal? (f : Flags) (c : Char) (hexPair : Bool) : Option CharSet :=
  if f.unicode then some (f.folded (.singleton c))
  else if hexPair && 128 ≤ c.toNat then none
  else some (f.folded (.singleton c))

def word (f : Flags) (test : WordTest) : Look := if f.unicode then .word test else .asciiWord test

def look (f : Flags) : Assertion → Look
  | .lineStart => if f.multiLine then if f.crlf then .crlfStart else .lineStart else .textStart
  | .lineEnd => if f.multiLine then if f.crlf then .crlfEnd else .lineEnd else .textEnd
  | .textStart => .textStart
  | .textEnd => .textEnd
  | .wordBoundary => f.word .boundary
  | .notWordBoundary => f.word .inside
  | .wordStart => f.word .starts
  | .wordEnd => f.word .ends
  | .wordStartHalf => f.word .startsHalf
  | .wordEndHalf => f.word .endsHalf

end Flags

def SetOp.apply : SetOp → CharSet → CharSet → CharSet
  | inter => .inter
  | diff => .diff
  | symDiff => .symDiff

/-- The characters of a class. Case is folded before a complement is taken, and in both
operands of a set operator. -/
def ClassSet.meaning? (lib : Library) (f : Flags) : ClassSet → Option CharSet
  | empty => some .empty
  | char c => if f.inClass? c then some (.singleton c) else none
  | range a b => if f.inClass? a && f.inClass? b then some (.range a b) else none
  | shorthand c negated => f.negated? negated (f.shorthand c)
  | ascii c negated => f.negated? negated (f.folded c.set)
  | property name negated => f.property? lib name negated
  | bracket negated members =>
    match members.meaning? lib f with
    | some s => f.negated? negated (f.folded s)
    | none => none
  | union a b =>
    match a.meaning? lib f, b.meaning? lib f with
    | some s, some t => some (.union s t)
    | _, _ => none
  | op o a b =>
    match a.meaning? lib f, b.meaning? lib f with
    | some s, some t => some (o.apply (f.folded s) (f.folded t))
    | _, _ => none

def Ast.meaning? (lib : Library) (f : Flags) : Ast → Option (Regex × Flags)
  | empty => some (.empty, f)
  | flags change => some (.empty, f.change change)
  | literal c hexPair => (f.literal? c hexPair).map fun s => (.set s, f)
  | dot => f.dot?.map fun s => (.set s, f)
  | assertion a => some (.look (f.look a), f)
  | shorthand c negated => (f.negated? negated (f.shorthand c)).map fun s => (.set s, f)
  | property name negated => (f.property? lib name negated).map fun s => (.set s, f)
  | bracket negated members =>
    ((members.meaning? lib f).bind fun s => f.negated? negated (f.folded s)).map
      fun s => (.set s, f)
  | rep least most greedy body =>
    (body.meaning? lib f).map fun (r, _) => (.rep least most (greedy != f.swapGreed) r, f)
  | group change body => (body.meaning? lib (f.change change)).map fun (r, _) => (r, f)
  | seq a b =>
    match a.meaning? lib f with
    | some (r, f) => (b.meaning? lib f).map fun (s, f) => (.seq r s, f)
    | none => none
  | alt a b =>
    match a.meaning? lib f with
    | some (r, f) => (b.meaning? lib f).map fun (s, f) => (.alt r s, f)
    | none => none

/-- The expression written in `source`, all flags but `unicode` being off at its start. -/
def parse? (lib : Library) (source : List Char) : Option Regex :=
  match Ast.parse? source with
  | some a => (a.meaning? lib {}).map Prod.fst
  | none => none

/-- Property names are compared without case, separators and a leading `is`. -/
def looseName (name : List Char) : String :=
  let letters := (name.filter fun c => c.toNat < 128 && !(" _-".toList.contains c)).map Char.toLower
  match letters with
  | 'i' :: 's' :: rest => String.ofList rest
  | letters => String.ofList letters

def CharSet.ofTable (table : Text.RangeTable) : CharSet :=
  .ofRanges (table.map fun (first, last) => (Char.ofNat first, Char.ofNat last))

def tabledProperty? (name : String) : Option CharSet :=
  match name with
  | "any" => some .any
  | "ascii" => some AsciiClass.ascii.set
  | "alpha" | "alphabetic" => some (.ofTable Text.alphabetic)
  | "l" | "letter" => some (.ofTable Text.letter)
  | "nd" | "decimalnumber" | "digit" => some .digit
  | "pc" | "connectorpunctuation" => some (.ofTable Text.connector)
  | "wspace" | "whitespace" | "space" => some .space
  | "joinc" | "joincontrol" => some (.ofTable Text.joiner)
  | _ => none

def bundledProperty? (ignoreCase : Bool) (name : List Char) : Option CharSet :=
  (tabledProperty? (looseName name)).map fun s => if ignoreCase then .fold s else s

def CharSet.states : CharSet → Nat
  | .empty => 1
  | .range first last => if first = last then first.utf8Size else 2 * last.utf8Size
  | .digit => 150
  | .space => 15
  | .word => 1500
  | .union a b | .inter a b | .diff a b | .symDiff a b => a.states + b.states
  | .compl a => a.states + 10
  | .fold a => 2 * a.states
  | .asciiFold a => 2 * a.states

/-- How many states an automaton for the expression needs, roughly. -/
def states : Regex → Nat
  | empty => 1
  | set s => s.states
  | look _ => 1
  | seq r s => r.states + s.states
  | alt r s => r.states + s.states + 2
  | rep least none _ body => max least 1 * body.states + 3
  | rep _ (some most) _ body => most * (body.states + 1) + 1

def maxStates : Nat := 327680

def Library.bundled : Library where
  property? := bundledProperty?
  fits source := (parse? ⟨bundledProperty?, fun _ => true⟩ source.toList).all (·.states ≤ maxStates)

end TableLexer.Regex
