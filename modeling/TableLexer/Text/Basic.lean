/-!
# Texts, places and tables of characters

A text is a list of characters and a place in it is the number of characters before it.
`bytesBefore` turns a place into a count of UTF-8 bytes and `placeAt?` turns a byte count back, if
it falls between two characters. A property of characters is given by the closed ranges of code
points that have it, in increasing order, so a lookup stops at the first range that starts above
the code point.
-/
namespace TableLexer.Text

def byteLength : List Char → Nat
  | [] => 0
  | c :: cs => c.utf8Size + byteLength cs

def bytesBefore (text : List Char) (i : Nat) : Nat := byteLength (text.take i)

/-- The place that lies `bytes` bytes into the text; none inside a character or past the end. -/
def placeAt? : List Char → Nat → Option Nat
  | _, 0 => some 0
  | [], _ + 1 => none
  | c :: cs, b => if c.utf8Size ≤ b then (placeAt? cs (b - c.utf8Size)).map (· + 1) else none

/-- The part of a text between two places. -/
def slice (text : List Char) (start stop : Nat) : List Char := (text.take stop).drop start

def sliceBytes? (text : List Char) (start stop : Nat) : Option (List Char) :=
  if start ≤ stop then
    match placeAt? text start, placeAt? text stop with
    | some i, some j => some (slice text i j)
    | _, _ => none
  else none

def charAtByte? (text : List Char) (pos : Nat) : Option Char :=
  (placeAt? text pos).bind fun i => text[i]?

/-- Whether one of the two line break characters occurs. -/
def hasLineBreak (text : List Char) : Bool := text.any fun c => c == '\n' || c == '\r'

theorem byteLength_append (s t : List Char) :
    byteLength (s ++ t) = byteLength s + byteLength t := by
  induction s with
  | nil => simp [byteLength]
  | cons c s ih => simp [byteLength, ih, Nat.add_assoc]

theorem placeAt?_bytesBefore (text : List Char) (i : Nat) (h : i ≤ text.length) :
    placeAt? text (bytesBefore text i) = some i := by
  induction text generalizing i with
  | nil =>
    obtain rfl : i = 0 := by simpa using h
    rfl
  | cons c cs ih =>
    cases i with
    | zero => rfl
    | succ i =>
      have hc := c.utf8Size_pos
      have hi : bytesBefore (c :: cs) (i + 1) = c.utf8Size + bytesBefore cs i := rfl
      obtain ⟨b, hb⟩ : ∃ b, c.utf8Size + bytesBefore cs i = b + 1 :=
        ⟨c.utf8Size + bytesBefore cs i - 1, by omega⟩
      rw [hi, hb, placeAt?, ← hb]
      · simp [ih i (by simpa using h)]
      · simp

abbrev RangeTable := List (Nat × Nat)

namespace RangeTable

def contains : RangeTable → Nat → Bool
  | [], _ => false
  | (first, last) :: rest, n =>
    if n < first then false else if n ≤ last then true else contains rest n

/-- Every range is nonempty and starts after the end of the one before it. -/
def Sorted : RangeTable → Prop
  | [] => True
  | [(first, last)] => first ≤ last
  | (first, last) :: (first', last') :: rest =>
    first ≤ last ∧ last < first' ∧ Sorted ((first', last') :: rest)

end RangeTable

def whiteSpace : RangeTable :=
  [(9, 13), (32, 32), (133, 133), (160, 160), (5760, 5760), (8192, 8202), (8232, 8233),
   (8239, 8239), (8287, 8287), (12288, 12288)]

def isBlank (c : Char) : Bool := whiteSpace.contains c.toNat

def allBlank (text : String) : Bool := text.toList.all isBlank

end TableLexer.Text
