import TableLexer.Regex.Lexis

/-!
# Reading regular expressions

Two recursive readers, one for bracketed classes and one for everything else. Each step
consumes at least one character, so the length of the source bounds their recursion.
-/
namespace TableLexer.Regex

def asciiClass? (name : String) : Option AsciiClass :=
  match name with
  | "alnum" => some .alnum
  | "alpha" => some .alpha
  | "ascii" => some .ascii
  | "blank" => some .blank
  | "cntrl" => some .cntrl
  | "digit" => some .digit
  | "graph" => some .graph
  | "lower" => some .lower
  | "print" => some .print
  | "punct" => some .punct
  | "space" => some .space
  | "upper" => some .upper
  | "word" => some .word
  | "xdigit" => some .xdigit
  | _ => none

def namedClass? : List Char → Option (ClassSet × List Char)
  | ':' :: rest =>
    let negated := rest.head? == some '^'
    let rest := if negated then rest.tail else rest
    match rest.dropWhile (· != ':') with
    | ':' :: ']' :: after =>
      (asciiClass? (String.ofList (rest.takeWhile (· != ':')))).map fun c =>
        (.ascii c negated, after)
    | _ => none
  | _ => none

/-- The beginning of a class: its negation, and the hyphens or the closing bracket that stand
for themselves there. -/
def classOpening (verbose : Bool) (cs : List Char) : Bool × List ClassSet × List Char :=
  let cs := skip verbose cs
  let negated := cs.head? == some '^'
  let cs := if negated then skip verbose cs.tail else cs
  let (hyphens, rest) := takeRun verbose (· == '-') cs.length cs
  match hyphens, rest with
  | [], ']' :: rest => (negated, [.char ']'], skip verbose rest)
  | hyphens, rest => (negated, hyphens.map .char, rest)

/-- One member of a class, before it is known whether it starts a range. -/
def classAtom? (verbose : Bool) : List Char → Option (Ast × List Char)
  | [] => none
  | '\\' :: rest => escape? verbose rest
  | c :: rest => some (.literal c false, rest)

def classItem? : Ast → Option ClassSet
  | .literal c _ => some (.char c)
  | .shorthand c negated => some (.shorthand c negated)
  | .property name negated => some (.property name negated)
  | _ => none

/-- A member of a class or a range of characters. A hyphen before the closing bracket or
another hyphen makes no range. -/
def classRange? (verbose : Bool) (cs : List Char) : Option (ClassSet × List Char) :=
  match classAtom? verbose cs with
  | none => none
  | some (first, rest) =>
    match skip verbose rest with
    | [] => none
    | '-' :: rest =>
      let peek := peekPast verbose rest
      if peek == some ']' || peek == some '-' then (classItem? first).map (·, '-' :: rest)
      else
        match first, classAtom? verbose (skip verbose rest) with
        | .literal a _, some (.literal b _, rest) =>
          if a ≤ b then some (.range a b, rest) else none
        | _, _ => none
    | rest => (classItem? first).map (·, rest)

/-- A class being read: the operand and operator waiting on the left, and the members read
since, newest first. -/
structure ClassProgress where
  pending : Option (ClassSet × SetOp)
  items : List ClassSet

namespace ClassProgress

def push (p : ClassProgress) (item : ClassSet) : ClassProgress :=
  { p with items := item :: p.items }

def close (p : ClassProgress) : ClassSet :=
  let right := ClassSet.ofItems p.items.reverse
  match p.pending with
  | none => right
  | some (left, o) => .op o left right

/-- Set operators associate to the left. -/
def operator (p : ClassProgress) (o : SetOp) : ClassProgress := ⟨some (p.close, o), []⟩

end ClassProgress

def classBody? (verbose : Bool) : Nat → ClassProgress → List Char → Option (ClassSet × List Char)
  | 0, _, _ => none
  | n + 1, p, cs =>
    match skip verbose cs with
    | [] => none
    | ']' :: rest => some (p.close, rest)
    | '&' :: '&' :: rest => classBody? verbose n (p.operator .inter) rest
    | '-' :: '-' :: rest => classBody? verbose n (p.operator .diff) rest
    | '~' :: '~' :: rest => classBody? verbose n (p.operator .symDiff) rest
    | '[' :: rest =>
      match namedClass? rest with
      | some (item, rest) => classBody? verbose n (p.push item) rest
      | none =>
        let (negated, items, rest) := classOpening verbose rest
        match classBody? verbose n ⟨none, items.reverse⟩ rest with
        | some (members, rest) => classBody? verbose n (p.push (.bracket negated members)) rest
        | none => none
    | cs =>
      match classRange? verbose cs with
      | some (item, rest) => classBody? verbose n (p.push item) rest
      | none => none

def bracketed? (verbose : Bool) (cs : List Char) : Option (Ast × List Char) :=
  let (negated, items, rest) := classOpening verbose cs
  (classBody? verbose (cs.length + 1) ⟨none, items.reverse⟩ rest).map fun (members, rest) =>
    (.bracket negated members, rest)

/-- A group being read: the alternatives that are complete and the parts of the current one,
newest first, whether filler is allowed, and the group names used so far. -/
structure GroupProgress where
  branches : List Ast
  parts : List Ast
  verbose : Bool
  names : List (List Char)

namespace GroupProgress

def start (verbose : Bool) (names : List (List Char)) : GroupProgress := ⟨[], [], verbose, names⟩

def push (p : GroupProgress) (a : Ast) : GroupProgress := { p with parts := a :: p.parts }

def branch (p : GroupProgress) : GroupProgress :=
  { p with branches := Ast.ofSequence p.parts.reverse :: p.branches, parts := [] }

def close (p : GroupProgress) : Ast := Ast.ofAlternatives p.branch.branches.reverse

/-- Repeats the last part; there must be one, and it must not be a mere change of flags. -/
def repeatLast? (p : GroupProgress) (least : Nat) (most : Option Nat) (greedy : Bool) :
    Option GroupProgress :=
  match p.parts with
  | [] => none
  | .flags _ :: _ => none
  | a :: parts => some { p with parts := .rep least most greedy a :: parts }

end GroupProgress

def lazyMark : List Char → Bool × List Char
  | '?' :: rest => (false, rest)
  | rest => (true, rest)

def alternatives? : Nat → GroupProgress → List Char →
    Option (Ast × List (List Char) × List Char)
  | 0, _, _ => none
  | n + 1, p, cs =>
    let uncounted (least : Nat) (most : Option Nat) (rest : List Char) :=
      let (greedy, rest) := lazyMark rest
      match p.repeatLast? least most greedy with
      | some p => alternatives? n p rest
      | none => none
    match skip p.verbose cs with
    | [] => some (p.close, p.names, [])
    | ')' :: rest => some (p.close, p.names, ')' :: rest)
    | '|' :: rest => alternatives? n p.branch rest
    | '?' :: rest => uncounted 0 (some 1) rest
    | '*' :: rest => uncounted 0 none rest
    | '+' :: rest => uncounted 1 none rest
    | '{' :: rest =>
      match counts? p.verbose rest with
      | some ((least, most), rest) => uncounted least most (skip p.verbose rest)
      | none => none
    | '(' :: rest =>
      match opening? p.verbose rest with
      | none => none
      | some (.flags change, rest) =>
        let verbose := (change.setting? .verbose).getD p.verbose
        alternatives? n { p.push (.flags change) with verbose } rest
      | some (.group change name, rest) =>
        let verbose := (change.setting? .verbose).getD p.verbose
        if name.any p.names.contains then none
        else
          match alternatives? n (.start verbose (name.toList ++ p.names)) rest with
          | some (body, names, ')' :: rest) =>
            alternatives? n { p.push (.group change body) with names } rest
          | _ => none
    | '[' :: rest =>
      match bracketed? p.verbose rest with
      | some (a, rest) => alternatives? n (p.push a) rest
      | none => none
    | '\\' :: rest =>
      match escape? p.verbose rest with
      | some (a, rest) => alternatives? n (p.push a) rest
      | none => none
    | '.' :: rest => alternatives? n (p.push .dot) rest
    | '^' :: rest => alternatives? n (p.push (.assertion .lineStart)) rest
    | '$' :: rest => alternatives? n (p.push (.assertion .lineEnd)) rest
    | c :: rest => alternatives? n (p.push (.literal c false)) rest

def Ast.parse? (source : List Char) : Option Ast :=
  match alternatives? (source.length + 1) (.start false []) source with
  | some (a, _, []) => if a.depth .apart ≤ maxDepth then some a else none
  | _ => none

end TableLexer.Regex
