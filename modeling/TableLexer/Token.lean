import TableLexer.Number
import TableLexer.Text.Quoted

/-!
# Tokens

A token has a type, which is a character that stands for itself or a name, a value and a place in
the source. The offset of a position counts characters from the start of the text, lines start at
one and the column counts characters from the start of the line.
-/
namespace TableLexer

structure Position where
  offset : Nat
  line : Nat
  column : Nat
  deriving DecidableEq, Repr

namespace Position

def origin : Position := ⟨0, 1, 0⟩

/-- Each line before this one ended with at least one character. -/
def Consistent (p : Position) : Prop := 1 ≤ p.line ∧ p.column + p.line ≤ p.offset + 1

instance (p : Position) : Decidable p.Consistent := inferInstanceAs (Decidable (_ ∧ _))

def text (p : Position) : String := toString p.line ++ ":" ++ toString p.column

end Position

inductive TokenType where
  | char (c : Char)
  | symbol (name : String)
  deriving DecidableEq, Repr

namespace TokenType

def isChar : TokenType → Bool
  | char _ => true
  | symbol _ => false

/-- The name with no character in it, which no token may carry. -/
def isBlankSymbol : TokenType → Bool
  | symbol name => name == ""
  | char _ => false

def text : TokenType → String
  | char c => Text.quoteChar c
  | symbol name => name

/-- Characters come before names; both are ordered by code point. -/
def before : TokenType → TokenType → Bool
  | char a, char b => decide (a < b)
  | char _, symbol _ => true
  | symbol _, char _ => false
  | symbol a, symbol b => decide (a < b)

def describe : TokenType → String
  | char c => "Char(" ++ Text.quoteChar c ++ ")"
  | symbol name => "Symbol(" ++ Text.quoteText name ++ ")"

end TokenType

inductive Value where
  | null
  | bool (b : Bool)
  | int (n : Int)
  | float (x : Float)
  | text (s : String)
  deriving Repr

namespace Value

/-- Equality of values; doubles are compared as numbers. -/
def beq : Value → Value → Bool
  | null, null => true
  | bool a, bool b => a == b
  | int a, int b => a == b
  | float a, float b => a == b
  | text a, text b => a == b
  | _, _ => false

instance : BEq Value := ⟨beq⟩

def asText? : Value → Option String
  | text s => some s
  | _ => none

def display : Value → String
  | null => "null"
  | bool true => "true"
  | bool false => "false"
  | int n => toString n
  | float x => Number.floatText x
  | text s => s

end Value

structure Token where
  value : Value
  lexeme : String
  position : Position
  deriving Repr

def endLexeme : String := "$"

namespace Token

def ofLexeme (lexeme : String) (position : Position) : Token := ⟨.text lexeme, lexeme, position⟩

def endOfStream (position : Position) : Token := ofLexeme endLexeme position

def hasText (t : Token) (s : String) : Bool := t.value.asText? == some s

end Token

end TableLexer
