/-!
# The written form of regular expressions

The tree a source is read into. Flags are still part of it: what a node means depends on the
flags in force where it stands.
-/
namespace TableLexer.Regex

inductive Flag where
  | ignoreCase
  | multiLine
  | dotAll
  | swapGreed
  | unicode
  | crlf
  | verbose
  deriving DecidableEq, Repr

abbrev FlagChange := List (Flag × Bool)

/-- What a change does to one flag, if it mentions it. -/
def FlagChange.setting? (change : FlagChange) (flag : Flag) : Option Bool :=
  change.lookup flag

inductive Shorthand where
  | digit
  | space
  | word
  deriving DecidableEq, Repr

inductive AsciiClass where
  | alnum | alpha | ascii | blank | cntrl | digit | graph
  | lower | print | punct | space | upper | word | xdigit
  deriving DecidableEq, Repr

inductive SetOp where
  | inter
  | diff
  | symDiff
  deriving DecidableEq, Repr

/-- What stands between brackets. -/
inductive ClassSet where
  | empty
  | char (c : Char)
  | range (first last : Char)
  | shorthand (c : Shorthand) (negated : Bool)
  | ascii (c : AsciiClass) (negated : Bool)
  | property (name : List Char) (negated : Bool)
  | bracket (negated : Bool) (members : ClassSet)
  | union (a b : ClassSet)
  | op (o : SetOp) (a b : ClassSet)
  deriving DecidableEq, Repr

inductive Assertion where
  | lineStart
  | lineEnd
  | textStart
  | textEnd
  | wordBoundary
  | notWordBoundary
  | wordStart
  | wordEnd
  | wordStartHalf
  | wordEndHalf
  deriving DecidableEq, Repr

inductive Ast where
  | empty
  | flags (change : FlagChange)
  /-- `hexPair` marks a character written as two hexadecimal digits. -/
  | literal (c : Char) (hexPair : Bool)
  | dot
  | assertion (a : Assertion)
  | shorthand (c : Shorthand) (negated : Bool)
  | property (name : List Char) (negated : Bool)
  | bracket (negated : Bool) (members : ClassSet)
  | rep (least : Nat) (most : Option Nat) (greedy : Bool) (body : Ast)
  | group (change : FlagChange) (body : Ast)
  | seq (a b : Ast)
  | alt (a b : Ast)
  deriving DecidableEq, Repr

/-- The list a node belongs to as a tail, so that a list counts as one level. -/
inductive Chain where
  | apart
  | union
  | seq
  | alt
  deriving DecidableEq, Repr

namespace ClassSet

def ofItems : List ClassSet → ClassSet
  | [] => empty
  | [item] => item
  | item :: items => union item (ofItems items)

def depth : ClassSet → Chain → Nat
  | bracket _ members, _ => 1 + members.depth .apart
  | union a b, ch => (if ch = .union then 0 else 1) + max (a.depth .apart) (b.depth .union)
  | op _ a b, _ => 1 + max (a.depth .apart) (b.depth .apart)
  | _, _ => 0

end ClassSet

namespace Ast

def ofSequence : List Ast → Ast
  | [] => empty
  | [a] => a
  | a :: as => seq a (ofSequence as)

def ofAlternatives : List Ast → Ast
  | [] => empty
  | [a] => a
  | a :: as => alt a (ofAlternatives as)

def depth : Ast → Chain → Nat
  | bracket _ members, _ => 1 + members.depth .apart
  | rep _ _ _ body, _ => 1 + body.depth .apart
  | group _ body, _ => 1 + body.depth .apart
  | seq a b, ch => (if ch = .seq then 0 else 1) + max (a.depth .apart) (b.depth .seq)
  | alt a b, ch => (if ch = .alt then 0 else 1) + max (a.depth .apart) (b.depth .alt)
  | _, _ => 0

/-- The deepest tree that is accepted. -/
def maxDepth : Nat := 250

end Ast
end TableLexer.Regex
