import TableLexer.Regex.Ast
import TableLexer.Text.Categories

/-!
# The small parts of a regular expression source

Blanks and comments, numbers, escapes, flag groups and group names. Every reader takes the
text that is left and gives what it read with the text after it, or nothing if the source is
malformed. `verbose` says whether blanks and comments may stand between the characters.
-/
namespace TableLexer.Regex

/-- Skips blanks and, from `#` to the end of the line, comments. -/
def skipFiller (inComment : Bool) : List Char → List Char
  | [] => []
  | c :: rest =>
    if inComment then skipFiller (c != '\n') rest
    else if Text.isBlank c then skipFiller false rest
    else if c == '#' then skipFiller true rest
    else c :: rest

def skip (verbose : Bool) (cs : List Char) : List Char :=
  if verbose then skipFiller false cs else cs

def takeRun (verbose : Bool) (p : Char → Bool) : Nat → List Char → List Char × List Char
  | 0, cs => ([], cs)
  | _ + 1, [] => ([], [])
  | n + 1, c :: rest =>
    if p c then
      let (run, rest) := takeRun verbose p n (skip verbose rest)
      (c :: run, rest)
    else ([], c :: rest)

/-- The first character after a hyphen in a bracketed class. A comment there hides the rest of
its line only up to the first character that is not blank. -/
def peekPast (verbose : Bool) (rest : List Char) : Option Char :=
  if verbose then
    match rest.dropWhile Text.isBlank with
    | [] => rest.head?
    | '#' :: comment =>
      match comment.dropWhile Text.isBlank with
      | [] => rest.head?
      | c :: _ => some c
    | c :: _ => some c
  else rest.head?

def hexValue? (c : Char) : Option Nat :=
  if Text.isAsciiDigit c then some (c.toNat - '0'.toNat)
  else if decide ('a' ≤ c ∧ c ≤ 'f') then some (c.toNat - 'a'.toNat + 10)
  else if decide ('A' ≤ c ∧ c ≤ 'F') then some (c.toNat - 'A'.toNat + 10)
  else none

def isHex (c : Char) : Bool := (hexValue? c).isSome

def ofHex (digits : List Char) : Nat :=
  digits.foldl (fun n c => 16 * n + (hexValue? c).getD 0) 0

def scalar? (n : Nat) : Option Char := if n.isValidChar then some (Char.ofNat n) else none

def decimal? (verbose : Bool) (cs : List Char) : Option Nat × List Char :=
  let (digits, rest) := takeRun verbose Text.isAsciiDigit cs.length (cs.dropWhile Text.isBlank)
  let n := digits.foldl (fun n c => 10 * n + (c.toNat - '0'.toNat)) 0
  (if digits.isEmpty || UInt32.size ≤ n then none else some n, rest.dropWhile Text.isBlank)

/-- The bounds of a counted repetition, after its opening brace. -/
def counts? (verbose : Bool) (cs : List Char) : Option ((Nat × Option Nat) × List Char) :=
  match decimal? verbose (skip verbose cs) with
  | (some least, '}' :: rest) => some ((least, some least), rest)
  | (some least, ',' :: rest) =>
    match skip verbose rest with
    | '}' :: rest => some ((least, none), rest)
    | rest =>
      match decimal? verbose rest with
      | (some most, '}' :: rest) => if least ≤ most then some ((least, some most), rest) else none
      | _ => none
  | _ => none

def hexDigits? (verbose : Bool) : Nat → List Char → Option (List Char × List Char)
  | 0, cs => some ([], cs)
  | _ + 1, [] => none
  | n + 1, c :: rest =>
    if isHex c then
      (hexDigits? verbose n (skip verbose rest)).map fun (digits, rest) => (c :: digits, rest)
    else none

/-- A code point: `width` digits, or any number of them between braces. The flag tells whether
it was written as two digits. -/
def codePoint? (verbose : Bool) (width : Nat) (cs : List Char) :
    Option ((Char × Bool) × List Char) :=
  match skip verbose cs with
  | '{' :: rest =>
    match takeRun verbose isHex rest.length (skip verbose rest) with
    | (digits, '}' :: rest) =>
      if digits.isEmpty then none
      else (scalar? (ofHex digits)).map fun c => ((c, false), skip verbose rest)
    | _ => none
  | rest =>
    match hexDigits? verbose width rest with
    | some (digits, rest) => (scalar? (ofHex digits)).map fun c => ((c, width == 2), rest)
    | none => none

/-- Characters that stand for themselves after a backslash: all of ASCII but letters, digits
and the two angle brackets. -/
def isEscapable (c : Char) : Bool :=
  c.toNat < 128 && !Text.isAsciiLetter c && !Text.isAsciiDigit c && c != '<' && c != '>'

def wordAssertion? (name : String) : Option Assertion :=
  match name with
  | "start" => some .wordStart
  | "end" => some .wordEnd
  | "start-half" => some .wordStartHalf
  | "end-half" => some .wordEndHalf
  | _ => none

/-- A word boundary, plain or with its kind in braces. Braces that do not start with a letter
or a hyphen are left for a repetition to read. -/
def wordBoundary? (verbose : Bool) : List Char → Option (Assertion × List Char)
  | '{' :: rest =>
    match skip verbose rest with
    | [] => none
    | c :: _ =>
      let named (c : Char) := Text.isAsciiLetter c || c == '-'
      if named c then
        match takeRun verbose named rest.length (skip verbose rest) with
        | (name, '}' :: rest) => (wordAssertion? (String.ofList name)).map (·, rest)
        | _ => none
      else some (.wordBoundary, '{' :: rest)
  | rest => some (.wordBoundary, rest)

def bracedName? (verbose : Bool) : Nat → List Char → Option (List Char × List Char)
  | 0, _ | _, [] => none
  | n + 1, c :: rest =>
    if c == '}' then some ([], rest)
    else
      (bracedName? verbose n (skip verbose rest)).map fun (name, rest) => (c :: name, rest)

/-- The name of a property as it is written: between braces, or a single character. -/
def propertyName? (verbose : Bool) (cs : List Char) : Option (List Char × List Char) :=
  match skip verbose cs with
  | [] | '\\' :: _ => none
  | '{' :: rest => bracedName? verbose (rest.length + 1) (skip verbose rest)
  | c :: rest => some ([c], rest)

def escape? (verbose : Bool) : List Char → Option (Ast × List Char)
  | [] => none
  | c :: rest =>
    let char (d : Char) : Option (Ast × List Char) := some (.literal d false, rest)
    let coded (width : Nat) : Option (Ast × List Char) :=
      (codePoint? verbose width rest).map fun ((d, pair), rest) => (.literal d pair, rest)
    let property (negated : Bool) : Option (Ast × List Char) :=
      (propertyName? verbose rest).map fun (name, rest) => (.property name negated, rest)
    match c with
    | 'p' => property false
    | 'P' => property true
    | 'x' => coded 2
    | 'u' => coded 4
    | 'U' => coded 8
    | 'd' => some (.shorthand .digit false, rest)
    | 'D' => some (.shorthand .digit true, rest)
    | 's' => some (.shorthand .space false, rest)
    | 'S' => some (.shorthand .space true, rest)
    | 'w' => some (.shorthand .word false, rest)
    | 'W' => some (.shorthand .word true, rest)
    | 'a' => char '\x07'
    | 'f' => char '\x0c'
    | 't' => char '\t'
    | 'n' => char '\n'
    | 'r' => char '\r'
    | 'v' => char '\x0b'
    | 'A' => some (.assertion .textStart, rest)
    | 'z' => some (.assertion .textEnd, rest)
    | 'B' => some (.assertion .notWordBoundary, rest)
    | '<' => some (.assertion .wordStart, rest)
    | '>' => some (.assertion .wordEnd, rest)
    | 'b' => (wordBoundary? verbose rest).map fun (a, rest) => (.assertion a, rest)
    | c => if isEscapable c then char c else none

def flag? : Char → Option Flag
  | 'i' => some .ignoreCase
  | 'm' => some .multiLine
  | 's' => some .dotAll
  | 'U' => some .swapGreed
  | 'u' => some .unicode
  | 'R' => some .crlf
  | 'x' => some .verbose
  | _ => none

/-- Flags up to a colon, which opens a group (`true`), or a closing parenthesis. No flag may
be named twice, and a hyphen must be followed by a flag. -/
def flagChange? (negated dangling : Bool) (seen : FlagChange) :
    List Char → Option ((FlagChange × Bool) × List Char)
  | [] => none
  | c :: rest =>
    if c == ':' || c == ')' then
      if dangling then none else some ((seen.reverse, c == ':'), rest)
    else if c == '-' then
      if negated then none else flagChange? true true seen rest
    else
      match flag? c with
      | none => none
      | some f =>
        if (FlagChange.setting? seen f).isSome then none
        else flagChange? negated false ((f, !negated) :: seen) rest

/-- Group names start with a letter or an underscore; digits, dots and brackets may follow. -/
def isGroupName : List Char → Bool
  | [] => false
  | c :: rest =>
    (c == '_' || Text.isAlphabetic c) &&
      rest.all fun d =>
        d == '_' || d == '.' || d == '[' || d == ']' || Text.isAlphabetic d ||
          Text.isDecimalDigit d || Text.isOtherNumber d

def groupName? (cs : List Char) : Option (List Char × List Char) :=
  let name := cs.takeWhile (· != '>')
  match cs.dropWhile (· != '>') with
  | '>' :: rest => if isGroupName name then some (name, rest) else none
  | _ => none

inductive Opening where
  | flags (change : FlagChange)
  | group (change : FlagChange) (name : Option (List Char))

/-- The part of a group between its opening parenthesis and its body. Look-around is not part
of the language. -/
def opening? (verbose : Bool) (cs : List Char) : Option (Opening × List Char) :=
  match skip verbose cs with
  | '?' :: '=' :: _ | '?' :: '!' :: _ | '?' :: '<' :: '=' :: _ | '?' :: '<' :: '!' :: _ => none
  | '?' :: 'P' :: '<' :: rest => (groupName? rest).map fun (n, rest) => (.group [] (some n), rest)
  | '?' :: '<' :: rest => (groupName? rest).map fun (n, rest) => (.group [] (some n), rest)
  | '?' :: rest =>
    match flagChange? false false [] rest with
    | some ((change, true), rest) => some (.group change none, rest)
    | some ((change, false), rest) => if change.isEmpty then none else some (.flags change, rest)
    | none => none
  | rest => some (.group [] none, rest)

end TableLexer.Regex
