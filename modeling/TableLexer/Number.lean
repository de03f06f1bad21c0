/-!
# Reading and writing numbers

Whole numbers are an optional sign and decimal digits, within 64 signed bits. Floating point
numbers are the three names `inf`, `infinity` and `nan` in any case, or digits with an optional
point and an optional exponent; the value is the nearest double. A finite double is written with
the fewest decimal digits that read back as the same double, the nearest such digits, and never
with an exponent.
-/
namespace TableLexer.Number

def splitSign : List Char → Bool × List Char
  | '-' :: rest => (true, rest)
  | '+' :: rest => (false, rest)
  | rest => (false, rest)

def isDigit (c : Char) : Bool := decide ('0' ≤ c ∧ c ≤ '9')

def ofDigits (digits : List Char) : Nat :=
  digits.foldl (fun n c => 10 * n + (c.toNat - '0'.toNat)) 0

def readNat? (cs : List Char) : Option Nat :=
  if cs.isEmpty || !cs.all isDigit then none else some (ofDigits cs)

def fitsInt64 (n : Int) : Bool := decide (-9223372036854775808 ≤ n ∧ n ≤ 9223372036854775807)

def readInt64? (text : String) : Option Int :=
  let (negative, rest) := splitSign text.toList
  match readNat? rest with
  | none => none
  | some n =>
    let value : Int := if negative then -(n : Int) else n
    if fitsInt64 value then some value else none

/-- What a floating point literal says: `digits` times ten to the `exponent`, or a name. -/
inductive Numeral where
  | finite (digits : Nat) (exponent : Int)
  | infinite
  | undefined
  deriving DecidableEq, Repr

def readExponent? : List Char → Option Int
  | [] => some 0
  | c :: rest =>
    if c == 'e' || c == 'E' then
      let (negative, digits) := splitSign rest
      (readNat? digits).map fun n => if negative then -(n : Int) else (n : Int)
    else none

def Numeral.read? (cs : List Char) : Option Numeral :=
  let name := cs.map Char.toLower
  if name == "inf".toList || name == "infinity".toList then some .infinite
  else if name == "nan".toList then some .undefined
  else
    let whole := cs.takeWhile isDigit
    let rest := cs.dropWhile isDigit
    let fraction := match rest with
      | '.' :: r => r.takeWhile isDigit
      | _ => []
    let tail := match rest with
      | '.' :: r => r.dropWhile isDigit
      | r => r
    if whole.isEmpty && fraction.isEmpty then none
    else (readExponent? tail).map fun e =>
      .finite (ofDigits (whole ++ fraction)) (e - fraction.length)

/-- The nearest double. Exponents that no double comes near are settled without computing
their powers of ten. -/
def Numeral.toFloat : Numeral → Float
  | .infinite => 1.0 / 0.0
  | .undefined => 0.0 / 0.0
  | .finite digits exponent =>
    let magnitude : Int := exponent + (Nat.toDigits 10 digits).length
    if digits = 0 || magnitude < -400 then 0.0
    else if 400 < magnitude then 1.0 / 0.0
    else if exponent < 0 then Float.ofScientific digits true exponent.natAbs
    else Float.ofScientific digits false exponent.natAbs

/-- The double a literal denotes. -/
def readFloat? (text : String) : Option Float :=
  let (negative, rest) := splitSign text.toList
  (Numeral.read? rest).map fun n => if negative then -n.toFloat else n.toFloat

/-- The positive number `mantissa * 2 ^ exponent` of a binary format. `narrow` says that the
neighbour below lies half as far away as the one above. -/
structure Binary where
  mantissa : Nat
  exponent : Int
  narrow : Bool
  deriving DecidableEq, Repr

/-- The decimal number `digits * 10 ^ exponent`. -/
structure Digits where
  digits : Nat
  exponent : Int
  deriving DecidableEq, Repr

namespace Binary

/-- The parts of a finite positive double. -/
def ofBits (bits : Nat) : Binary :=
  let field : Nat := (bits >>> 52) % (1 <<< 11)
  let fraction : Nat := bits % (1 <<< 52)
  if field = 0 then ⟨fraction, -1074, false⟩
  else ⟨(1 <<< 52) + fraction, (field : Int) - 1075, fraction = 0 && 1 < field⟩

/-- The number nearest to `b` on the grid of the multiples of `10 ^ k`, if one of its two
neighbours there reads back as `b`. All quantities are counted in units of a quarter of the
last binary place; the ends of the interval belong to it if the mantissa is even, and of two
equally near neighbours the upper one is taken. -/
def onGrid? (b : Binary) (k : Int) : Option Digits :=
  let unit := Nat.pow 2 (b.exponent - 2).toNat * Nat.pow 10 (-k).toNat
  let grid := Nat.pow 10 k.toNat * Nat.pow 2 (2 - b.exponent).toNat
  let value := 4 * b.mantissa * unit
  let top := (4 * b.mantissa + 2) * unit
  let bottom := (4 * b.mantissa - if b.narrow then 1 else 2) * unit
  let even := b.mantissa % 2 = 0
  let below := value / grid
  let downFits := if even then decide (bottom ≤ below * grid) else decide (bottom < below * grid)
  let upFits :=
    if even then decide ((below + 1) * grid ≤ top) else decide ((below + 1) * grid < top)
  let nearDown := decide (2 * (value - below * grid) < grid)
  if downFits && (nearDown || !upFits) then some ⟨below, k⟩
  else if upFits then some ⟨below + 1, k⟩
  else none

/-- The fewest digits: the coarsest grid with a hit. The grids tried reach from above the
largest double to below the smallest one. -/
def shortest (b : Binary) : Digits :=
  ((List.range 660).findSome? fun i : Nat => b.onGrid? (310 - (i : Int))).getD ⟨0, 0⟩

end Binary

def Digits.positional (d : Digits) : String :=
  let ds := Nat.toDigits 10 d.digits
  if 0 ≤ d.exponent then String.ofList (ds ++ List.replicate d.exponent.toNat '0')
  else
    let places := d.exponent.natAbs
    let padded := List.replicate (places + 1 - ds.length) '0' ++ ds
    let whole := padded.take (padded.length - places)
    String.ofList (whole ++ '.' :: padded.drop (padded.length - places))

def floatText (x : Float) : String :=
  let bits := x.toBits.toNat
  let negative := 1 <<< 63 ≤ bits
  let magnitude := bits % (1 <<< 63)
  let infinity := 2047 <<< 52
  if infinity < magnitude then "NaN"
  else
    let body :=
      if magnitude = infinity then "inf"
      else if magnitude = 0 then "0"
      else (Binary.ofBits magnitude).shortest.positional
    if negative then "-" ++ body else body

end TableLexer.Number
