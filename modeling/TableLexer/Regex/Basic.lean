import TableLexer.Text.CaseFold
import TableLexer.Text.Categories

/-!
# Regular expressions

A regular expression is matched from a cursor: a place in a text with the characters on both
sides of it. Alternatives are tried in order and repetitions prefer more rounds, or fewer if
they are lazy; the first way to match wins, even if a later one is longer.

A round of an unbounded repetition that consumes nothing is never followed by another one: the
first round may be empty and then ends the repetition, a later empty round is no match at all.
So the loop always gets closer to the end of the text.

What one step may consume is a set of characters: a term over ranges, Unicode classes and the set
operations.
-/
namespace TableLexer.Regex

inductive CharSet where
  | empty
  | range (first last : Char)
  | digit
  | space
  | word
  | union (a b : CharSet)
  | inter (a b : CharSet)
  | diff (a b : CharSet)
  | symDiff (a b : CharSet)
  | compl (a : CharSet)
  /-- Closed under Unicode case variants. -/
  | fold (a : CharSet)
  /-- Closed under the case of the letters a to z. -/
  | asciiFold (a : CharSet)
  deriving DecidableEq, Repr

namespace CharSet

def mem : CharSet → Char → Bool
  | empty, _ => false
  | range first last, c => decide (first ≤ c ∧ c ≤ last)
  | digit, c => Text.isDecimalDigit c
  | space, c => Text.isBlank c
  | word, c => Text.isWord c
  | union a b, c => a.mem c || b.mem c
  | inter a b, c => a.mem c && b.mem c
  | diff a b, c => a.mem c && !b.mem c
  | symDiff a b, c => a.mem c != b.mem c
  | compl a, c => !a.mem c
  | fold a, c => (Text.caseVariants c).any a.mem
  | asciiFold a, c => (Text.asciiCaseVariants c).any a.mem

def singleton (c : Char) : CharSet := range c c

def any : CharSet := compl empty

def ofRanges (ranges : List (Char × Char)) : CharSet :=
  ranges.foldr (fun r s => union (range r.1 r.2) s) empty

@[simp] theorem mem_singleton (c d : Char) : (singleton c).mem d = decide (d = c) := by
  simp only [singleton, mem, decide_eq_decide]
  exact ⟨fun h => Char.le_antisymm h.2 h.1, fun h => h ▸ ⟨Char.le_refl _, Char.le_refl _⟩⟩

@[simp] theorem mem_any (c : Char) : any.mem c = true := rfl

end CharSet
end TableLexer.Regex

namespace TableLexer

namespace Regex

structure Cursor where
  offset : Nat
  before : Option Char
  rest : List Char
  deriving DecidableEq, Repr

namespace Cursor

/-- The cursor at the place `i` of `text`. -/
def ofText (text : List Char) (i : Nat) : Cursor :=
  ⟨i, if i = 0 then none else text[i - 1]?, text.drop i⟩

def advance (cur : Cursor) (c : Char) (rest : List Char) : Cursor :=
  ⟨cur.offset + 1, some c, rest⟩

end Cursor

inductive WordTest where
  | boundary
  | inside
  | starts
  | ends
  | startsHalf
  | endsHalf
  deriving DecidableEq, Repr

def WordTest.holds : WordTest → (before after : Bool) → Bool
  | boundary, b, a => b != a
  | inside, b, a => b == a
  | starts, b, a => !b && a
  | ends, b, a => b && !a
  | startsHalf, b, _ => !b
  | endsHalf, _, a => !a

inductive Look where
  | textStart
  | textEnd
  | lineStart
  | lineEnd
  /-- As `lineStart`, where a carriage return also ends lines and stays together with a
  line feed after it. -/
  | crlfStart
  | crlfEnd
  | word (test : WordTest)
  | asciiWord (test : WordTest)
  deriving DecidableEq, Repr

namespace Look

def sides (p : Char → Bool) (test : WordTest) (cur : Cursor) : Bool :=
  test.holds (cur.before.any p) (cur.rest.head?.any p)

def holds : Look → Cursor → Bool
  | textStart, cur => cur.before.isNone
  | textEnd, cur => cur.rest.isEmpty
  | lineStart, cur => cur.before.isNone || cur.before == some '\n'
  | lineEnd, cur => cur.rest.isEmpty || cur.rest.head? == some '\n'
  | crlfStart, cur =>
    cur.before.isNone || cur.before == some '\n' ||
      cur.before == some '\r' && cur.rest.head? != some '\n'
  | crlfEnd, cur =>
    cur.rest.isEmpty || cur.rest.head? == some '\r' ||
      cur.rest.head? == some '\n' && cur.before != some '\r'
  | word test, cur => sides Text.isWord test cur
  | asciiWord test, cur => sides Text.isAsciiWord test cur

end Look
end Regex

inductive Regex where
  | empty
  | set (s : Regex.CharSet)
  | look (l : Regex.Look)
  | seq (r s : Regex)
  | alt (r s : Regex)
  | rep (least : Nat) (most : Option Nat) (greedy : Bool) (body : Regex)
  deriving DecidableEq, Repr

namespace Regex

/-- How a step goes on: it hands each place it can reach to the rest of the match, in order of
preference, until the rest succeeds. -/
abbrev Step (β : Type) := (Cursor → Option β) → Cursor → Option β

/-- Another round or the end of the repetition, whichever is preferred first. -/
def choose {β : Type} (greedy : Bool) (more stop : Unit → Option β) : Option β :=
  if greedy then (more ()).orElse stop else (stop ()).orElse more

def times {β : Type} (step : Step β) : Nat → Step β
  | 0, k, cur => k cur
  | n + 1, k, cur => step (times step n k) cur

def upTo {β : Type} (step : Step β) (greedy : Bool) : Nat → Step β
  | 0, k, cur => k cur
  | n + 1, k, cur =>
    choose greedy (fun _ => step (upTo step greedy n k) cur) (fun _ => k cur)

/-- After a round that consumed something, with at most `room` characters left. -/
def again {β : Type} (step : Step β) (greedy : Bool) (k : Cursor → Option β) :
    Nat → Cursor → Option β
  | 0, cur => k cur
  | room + 1, cur =>
    choose greedy
      (fun _ => step (fun next =>
        if next.offset = cur.offset then none else again step greedy k room next) cur)
      (fun _ => k cur)

def plus {β : Type} (step : Step β) (greedy : Bool) : Step β := fun k cur =>
  step (fun next =>
    if next.offset = cur.offset then k next
    else again step greedy k next.rest.length next) cur

def star {β : Type} (step : Step β) (greedy : Bool) : Step β := fun k cur =>
  choose greedy (fun _ => plus step greedy k cur) (fun _ => k cur)

def repeated {β : Type} (step : Step β) (greedy : Bool) : Nat → Option Nat → Step β
  | least, some most => fun k => times step least (upTo step greedy (most - least) k)
  | 0, none => star step greedy
  | n + 1, none => fun k => times step n (plus step greedy k)

/-- Matches from a cursor, the rest of the match being `k`. -/
def run {β : Type} : Regex → Step β
  | empty, k, cur => k cur
  | set s, k, cur =>
    match cur.rest with
    | [] => none
    | c :: rest => if s.mem c then k (cur.advance c rest) else none
  | look l, k, cur => if l.holds cur then k cur else none
  | seq r s, k, cur => r.run (s.run k) cur
  | alt r s, k, cur => (r.run k cur).orElse fun _ => s.run k cur
  | rep least most greedy body, k, cur => repeated body.run greedy least most k cur

def matchAt? (r : Regex) (text : List Char) (i : Nat) : Option Nat :=
  r.run (fun cur => some (cur.offset - i)) (Cursor.ofText text i)

def occursIn (r : Regex) (text : List Char) : Bool :=
  (List.range (text.length + 1)).any fun i => (r.matchAt? text i).isSome

end Regex
end TableLexer
