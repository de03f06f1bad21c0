import TableLexer.Lexer.Drive

/-!
# A lexer for JSON

A worked example of a rule table. Punctuation is dispatched by a standard rule; strings,
numbers and the literal names go through look-ahead subrules, the latter two after putting
their first character back. Transforms give tokens their values.

Numbers are whole if they fit into 64 bits, else floating point. Strings are decoded; an escape
that names half of a surrogate pair must be followed by the other half.
-/
namespace TableLexer.Json

def numberValue? (lexeme : String) : Option Value :=
  match Number.readInt64? lexeme with
  | some n => some (.int n)
  | none => (Number.readFloat? lexeme).map .float

def hexDigit? (c : Char) : Option Nat :=
  if decide ('0' ≤ c ∧ c ≤ '9') then some (c.toNat - '0'.toNat)
  else if decide ('a' ≤ c ∧ c ≤ 'f') then some (c.toNat - 'a'.toNat + 10)
  else if decide ('A' ≤ c ∧ c ≤ 'F') then some (c.toNat - 'A'.toNat + 10)
  else none

/-- The number written with four hexadecimal digits; a plus sign may stand for the first. -/
def hex4? (a b c d : Char) : Option Nat :=
  match if a = '+' then some 0 else hexDigit? a, hexDigit? b, hexDigit? c, hexDigit? d with
  | some a, some b, some c, some d => some (((a * 16 + b) * 16 + c) * 16 + d)
  | _, _, _, _ => none

def unit? (n : Nat) : Option Char := if n.isValidChar then some (Char.ofNat n) else none

def isHigh (n : Nat) : Bool := decide (0xD800 ≤ n ∧ n < 0xDC00)

def isLow (n : Nat) : Bool := decide (0xDC00 ≤ n ∧ n < 0xE000)

/-- The character of a surrogate pair. -/
def pair? (high low : Nat) : Option Char :=
  if isHigh high && isLow low then unit? (0x10000 + (high - 0xD800) * 1024 + (low - 0xDC00))
  else none

def simpleEscape? : Char → Option Char
  | '"' => some '"'
  | '\\' => some '\\'
  | '/' => some '/'
  | 'b' => some '\x08'
  | 'f' => some '\x0c'
  | 'n' => some '\n'
  | 'r' => some '\r'
  | 't' => some '\t'
  | _ => none

def prepend? (c : Option Char) (text : Option (List Char)) : Option (List Char) :=
  match c, text with
  | some c, some text => some (c :: text)
  | _, _ => none

/-- Decodes the body of a string literal. `high` is the first half of a surrogate pair whose
second half must follow. -/
def decode? (high : Option Nat) : List Char → Option (List Char)
  | [] => if high.isSome then none else some []
  | '\\' :: 'u' :: a :: b :: c :: d :: rest =>
    match hex4? a b c d, high with
    | none, _ => none
    | some low, some h => prepend? (pair? h low) (decode? none rest)
    | some n, none =>
      if isHigh n then decode? (some n) rest else prepend? (unit? n) (decode? none rest)
  | '\\' :: x :: rest =>
    if high.isSome then none else prepend? (simpleEscape? x) (decode? none rest)
  | x :: rest =>
    if high.isSome || x == '\\' then none else prepend? (some x) (decode? none rest)

def unescape? (body : List Char) : Option (List Char) := decode? none body

/-- What stands between two delimiters of one byte each; nothing if a delimiter is longer. -/
def bodyOf (lexeme : List Char) : List Char :=
  let isByte (c : Char) : Bool := c.toNat < 128
  if lexeme.head?.all isByte && lexeme.getLast?.all isByte then lexeme.tail.dropLast else []

def stringValue? (lexeme : String) : Option Value :=
  (unescape? (bodyOf lexeme.toList)).map fun text => .text (String.ofList text)

def punctuation : List Char := ['{', '}', '[', ']', ',', ':']

def tokenTypes : List (TokenType × String) :=
  [(.char '{', "begin object"), (.char '}', "end object"),
    (.char '[', "begin array"), (.char ']', "end array"),
    (.char ',', "value separator"), (.char ':', "name separator"),
    (.symbol "STRING", "string literal"), (.symbol "NUMBER", "number literal"),
    (.symbol "TRUE", "true literal"), (.symbol "FALSE", "false literal"),
    (.symbol "NULL", "null literal")]

/-- Puts the first character of a literal back and applies its rule. -/
def rescan (subrule : String) : Action := .sequence [.putBack, .subrule subrule]

def mainRule : Rule :=
  let dispatched : Rule :=
    { name := "main", kind := .standard
      handlers := [⟨.char '"', .subrule "string"⟩] }
  let literals :=
    (dispatched.onChars "tfn" (rescan "literal_name")).onChars "-0123456789" (rescan "number")
  punctuation.foldl (fun r c => r.on (.char c) (.enqueue (.char c))) literals

def literalRule (name : String) (table : List (String × String)) : Except LexError Rule := do
  let handlers ← table.mapM fun (source, type) =>
    return (⟨← Pattern.ofRegex source, .enqueue (.symbol type)⟩ : Handler)
  return { name, kind := .lookahead, handlers }

def stringSource : String :=
  "(?:[^\"\\\\\\x00-\\x1f]|\\\\(?:[\"\\\\/bfnrt]|u[0-9a-fA-F]\x7b4\x7d))*\""

def numberSource : String := "-?(?:0|[1-9]\\d*)(?:\\.\\d+)?(?:[eE][-+]?\\d+)?"

def ruleset : Except LexError Ruleset := do
  let rules ← Ruleset.setTypes {} tokenTypes
  let rules ← rules.addRule mainRule
  let rules ← rules.addRule (← literalRule "string" [(stringSource, "STRING")])
  let rules ← rules.addRule (← literalRule "literal_name"
    [("true\\b", "TRUE"), ("false\\b", "FALSE"), ("null\\b", "NULL")])
  let rules ← rules.addRule (← literalRule "number" [(numberSource, "NUMBER")])
  rules.validate
  return rules

/-- Replaces the value of tokens; a lexeme without a value keeps its text. -/
def valued (name : String) (value? : String → Option Value) : Except LexError Transform :=
  Transform.make (.symbol name) fun t =>
    some (.symbol name, { t with value := (value? t.lexeme).getD t.value })

def options : Except LexError Options := do
  let noise ← Pattern.ofRegex "[ \\t]+"
  let transforms ← [
    valued "STRING" stringValue?,
    valued "NUMBER" numberValue?,
    valued "TRUE" fun _ => some (.bool true),
    valued "FALSE" fun _ => some (.bool false),
    valued "NULL" fun _ => some .null].mapM id
  return { engine := { noise }, transforms }

def lexer : Except LexError Lexer := do
  Lexer.new (← ruleset) (← options)

end TableLexer.Json
