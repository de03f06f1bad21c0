import TableLexer.Json
import TableLexer.Proofs.Matching

/-!
# Number literals

A number is written as an optional minus sign, whole digits without leading zeros, and optional
digits behind a point and in an exponent. The grammar is stated over any notion of digits: with
the ASCII digits it is that of JSON, with the decimal digits of every script it is that of the
pattern. Only numbers in ASCII digits have a value.
-/
namespace TableLexer.Json

open Number (isDigit ofDigits)

structure Exponent where
  letter : Char
  sign : Option Char
  digits : List Char

structure NumberLiteral where
  minus : Bool
  whole : List Char
  fraction : Option (List Char)
  exponent : Option Exponent

def Exponent.text (e : Exponent) : List Char := e.letter :: (e.sign.toList ++ e.digits)

namespace NumberLiteral

def fractionText (n : NumberLiteral) : List Char := n.fraction.elim [] ('.' :: ·)

def exponentText (n : NumberLiteral) : List Char := n.exponent.elim [] Exponent.text

def unsigned (n : NumberLiteral) : List Char := n.whole ++ (n.fractionText ++ n.exponentText)

def text (n : NumberLiteral) : List Char := (if n.minus then ['-'] else []) ++ n.unsigned

end NumberLiteral

def Digits (digit : Char → Bool) (text : List Char) : Prop :=
  text ≠ [] ∧ ∀ c ∈ text, digit c = true

/-- Zero, or digits of which the first is an ASCII digit other than zero. -/
inductive Whole (digit : Char → Bool) : List Char → Prop where
  | zero : Whole digit ['0']
  | digits {c : Char} {rest : List Char} (hc : '1' ≤ c ∧ c ≤ '9')
      (hrest : ∀ d ∈ rest, digit d = true) : Whole digit (c :: rest)

structure Exponent.WellFormed (digit : Char → Bool) (e : Exponent) : Prop where
  letter : e.letter = 'e' ∨ e.letter = 'E'
  sign : ∀ c ∈ e.sign, c = '-' ∨ c = '+'
  digits : Digits digit e.digits

structure NumberLiteral.WellFormed (digit : Char → Bool) (n : NumberLiteral) : Prop where
  whole : Whole digit n.whole
  fraction : ∀ digits ∈ n.fraction, Digits digit digits
  exponent : ∀ e ∈ n.exponent, e.WellFormed digit

def IsNumber (digit : Char → Bool) (text : List Char) : Prop :=
  ∃ n : NumberLiteral, n.WellFormed digit ∧ n.text = text

def Ascii (text : List Char) : Prop := ∀ c ∈ text, c.toNat < 128

instance (text : List Char) : Decidable (Ascii text) :=
  List.decidableBAll (fun c : Char => c.toNat < 128) text

def digitRun : Regex := .rep 1 none true (.set .digit)

def wholeRegex : Regex :=
  .alt (.set (.singleton '0')) (.seq (.set (.range '1' '9')) (.rep 0 none true (.set .digit)))

def fractionRegex : Regex := .seq (.set (.singleton '.')) digitRun

def exponentRegex : Regex :=
  .seq (.set (.union (.singleton 'e') (.singleton 'E')))
    (.seq (.rep 0 (some 1) true (.set (.union (.singleton '-') (.singleton '+')))) digitRun)

def numberRegex : Regex :=
  .seq (.rep 0 (some 1) true (.set (.singleton '-')))
    (.seq wholeRegex
      (.seq (.rep 0 (some 1) true fractionRegex) (.rep 0 (some 1) true exponentRegex)))

def numberPattern : Pattern :=
  .regex { source := numberSource, regex := numberRegex, spansLines := false }

theorem numberPattern_source : (Pattern.ofRegex numberSource).toOption = some numberPattern := by
  decide +kernel

section Read

variable {text : List Char}

theorem digitRun_read (h : digitRun.Language text) : Digits Text.isDecimalDigit text := by
  obtain ⟨hlen, hall⟩ := Regex.language_run.mp h
  exact ⟨List.length_pos_iff.mp hlen, hall⟩

theorem wholeRegex_read (h : wholeRegex.Language text) : Whole Text.isDecimalDigit text := by
  rcases h with ⟨c, hc, rfl⟩ | ⟨x, rest, ⟨c, hc, rfl⟩, hrest, rfl⟩
  · obtain rfl : c = '0' := by simpa using hc
    exact .zero
  · exact .digits (by simpa [Regex.CharSet.mem] using hc) (Regex.language_run.mp hrest).2

theorem fractionRegex_read (h : fractionRegex.Language text) :
    ∃ digits, Digits Text.isDecimalDigit digits ∧ text = '.' :: digits := by
  obtain ⟨x, digits, ⟨c, hc, rfl⟩, hdigits, rfl⟩ := h
  obtain rfl : c = '.' := by simpa using hc
  exact ⟨digits, digitRun_read hdigits, rfl⟩

theorem exponentRegex_read (h : exponentRegex.Language text) :
    ∃ e : Exponent, e.WellFormed Text.isDecimalDigit ∧ text = e.text := by
  obtain ⟨x, y, ⟨letter, hletter, rfl⟩, ⟨sign, digits, hsign, hdigits, rfl⟩, rfl⟩ := h
  have hletter : letter = 'e' ∨ letter = 'E' := by simpa [Regex.CharSet.mem] using hletter
  have hdigits := digitRun_read hdigits
  rcases Regex.language_optional.mp hsign with rfl | ⟨c, hc, rfl⟩
  · exact ⟨⟨letter, none, digits⟩, ⟨hletter, by simp, hdigits⟩, rfl⟩
  · have hc : c = '-' ∨ c = '+' := by simpa [Regex.CharSet.mem] using hc
    exact ⟨⟨letter, some c, digits⟩, ⟨hletter, by simpa using hc, hdigits⟩, rfl⟩

/-- What the pattern reads is a number in the digits of any script. -/
theorem numberRegex_read (h : numberRegex.Language text) :
    IsNumber Text.isDecimalDigit text := by
  obtain ⟨sign, y, hsign, ⟨whole, z, hwhole, ⟨fraction, exponent, hfrac, hexp, rfl⟩, rfl⟩, rfl⟩ := h
  obtain ⟨minus, rfl⟩ : ∃ minus : Bool, sign = if minus then ['-'] else [] := by
    rcases Regex.language_optional.mp hsign with rfl | ⟨c, hc, rfl⟩
    · exact ⟨false, rfl⟩
    · obtain rfl : c = '-' := by simpa using hc
      exact ⟨true, rfl⟩
  obtain ⟨digits?, hdigits, rfl⟩ : ∃ digits? : Option (List Char),
      (∀ digits ∈ digits?, Digits Text.isDecimalDigit digits) ∧
        fraction = digits?.elim [] ('.' :: ·) := by
    rcases Regex.language_optional.mp hfrac with rfl | hfrac
    · exact ⟨none, by simp, rfl⟩
    · obtain ⟨digits, hdigits, rfl⟩ := fractionRegex_read hfrac
      exact ⟨some digits, by simpa using hdigits, rfl⟩
  obtain ⟨exponent?, hexponent, rfl⟩ : ∃ exponent? : Option Exponent,
      (∀ e ∈ exponent?, e.WellFormed Text.isDecimalDigit) ∧
        exponent = exponent?.elim [] Exponent.text := by
    rcases Regex.language_optional.mp hexp with rfl | hexp
    · exact ⟨none, by simp, rfl⟩
    · obtain ⟨e, he, rfl⟩ := exponentRegex_read hexp
      exact ⟨some e, by simpa using he, rfl⟩
  exact ⟨⟨minus, whole, digits?, exponent?⟩, ⟨wholeRegex_read hwhole, hdigits, hexponent⟩, rfl⟩

/-- What the pattern takes at a place of a text is a number. -/
theorem number_matched {i k : Nat} (h : numberPattern.matchAt? text i = some k) :
    ∃ x rest, text.drop i = x ++ rest ∧ x.length = k ∧ IsNumber Text.isDecimalDigit x := by
  unfold Pattern.matchAt? at h
  split at h
  · cases h
  · obtain ⟨x, rest, hdrop, hlen, hx⟩ := Regex.matchAt?_reads h
    exact ⟨x, rest, hdrop, hlen, numberRegex_read hx⟩

end Read

theorem isDigit_iff {c : Char} : isDigit c = true ↔ 48 ≤ c.toNat ∧ c.toNat ≤ 57 := by
  rw [isDigit, decide_eq_true_eq]
  exact Iff.rfl

theorem isDigit_ascii {c : Char} (h : isDigit c = true) : c.toNat < 128 := by
  have := isDigit_iff.mp h
  omega

theorem ascii_digit {c : Char} (h : c.toNat < 128) : Text.isDecimalDigit c = isDigit c := by
  obtain ⟨others, htable⟩ : ∃ others, Text.decimalDigit = (48, 57) :: (1632, 1641) :: others :=
    ⟨_, rfl⟩
  rw [Text.isDecimalDigit, htable, Bool.eq_iff_iff, isDigit_iff]
  simp only [Text.RangeTable.contains]
  split
  · simp only [Bool.false_eq_true, false_iff]
    omega
  · split
    · simp only [true_iff]
      omega
    · rw [if_pos (by omega)]
      simp only [Bool.false_eq_true, false_iff]
      omega

theorem first_digit {c : Char} (h : '1' ≤ c ∧ c ≤ '9') : isDigit c = true := by
  have h : 49 ≤ c.toNat ∧ c.toNat ≤ 57 := h
  rw [isDigit_iff]
  omega

section Change

variable {p q : Char → Bool} {n : NumberLiteral}

theorem Digits.change {text : List Char} (h : Digits p text)
    (hpq : ∀ c ∈ text, p c = true → q c = true) : Digits q text :=
  ⟨h.1, fun c hc => hpq c hc (h.2 c hc)⟩

theorem Whole.change {text : List Char} (h : Whole p text)
    (hpq : ∀ c ∈ text, p c = true → q c = true) : Whole q text := by
  cases h with
  | zero => exact .zero
  | digits hc hrest =>
    exact .digits hc fun d hd => hpq d (List.mem_cons_of_mem _ hd) (hrest d hd)

/-- A number in some digits is one in other digits if those it is written with are among them. -/
theorem NumberLiteral.WellFormed.change (h : n.WellFormed p)
    (hpq : ∀ c ∈ n.text, p c = true → q c = true) : n.WellFormed q := by
  have hunsigned : ∀ c ∈ n.unsigned, p c = true → q c = true :=
    fun c hc => hpq c (List.mem_append_right _ hc)
  simp only [unsigned, List.forall_mem_append] at hunsigned
  obtain ⟨hwhole, hfrac, hexp⟩ := hunsigned
  refine ⟨h.whole.change hwhole, ?_, ?_⟩
  · intro digits hdigits
    have hdigits : n.fraction = some digits := hdigits
    simp only [fractionText, hdigits, Option.elim_some, List.forall_mem_cons] at hfrac
    exact (h.fraction digits hdigits).change hfrac.2
  · intro e he
    have he : n.exponent = some e := he
    simp only [exponentText, he, Option.elim_some, Exponent.text, List.forall_mem_cons,
      List.forall_mem_append] at hexp
    obtain ⟨hletter, hsign, hdigits⟩ := h.exponent e he
    exact ⟨hletter, hsign, hdigits.change hexp.2.2⟩

end Change

theorem Whole.ascii {text : List Char} (h : Whole isDigit text) : Ascii text := by
  cases h with
  | zero => decide
  | digits hc hrest =>
    exact List.forall_mem_cons.mpr
      ⟨isDigit_ascii (first_digit hc), fun d hd => isDigit_ascii (hrest d hd)⟩

theorem Digits.ascii {text : List Char} (h : Digits isDigit text) : Ascii text :=
  fun c hc => isDigit_ascii (h.2 c hc)

theorem Ascii.append {x y : List Char} (hx : Ascii x) (hy : Ascii y) : Ascii (x ++ y) :=
  List.forall_mem_append.mpr ⟨hx, hy⟩

theorem Ascii.cons {c : Char} {x : List Char} (hc : c.toNat < 128) (hx : Ascii x) :
    Ascii (c :: x) := List.forall_mem_cons.mpr ⟨hc, hx⟩

theorem Exponent.WellFormed.ascii {e : Exponent} (h : e.WellFormed isDigit) : Ascii e.text := by
  have hletter : e.letter.toNat < 128 := by
    rcases h.letter with hl | hl <;> rw [hl] <;> decide
  refine .cons hletter (.append ?_ h.digits.ascii)
  intro c hc
  rcases h.sign c (Option.mem_toList.mp hc) with rfl | rfl <;> decide

theorem NumberLiteral.WellFormed.ascii {n : NumberLiteral} (h : n.WellFormed isDigit) :
    Ascii n.text := by
  refine .append (by cases n.minus <;> decide) (.append h.whole.ascii (.append ?_ ?_))
  · unfold fractionText
    cases hf : n.fraction with
    | none => decide
    | some digits => exact .cons (by decide) (h.fraction digits hf).ascii
  · unfold exponentText
    cases he : n.exponent with
    | none => decide
    | some e => exact (h.exponent e he).ascii

theorem IsNumber.ascii {text : List Char} (h : IsNumber isDigit text) : Ascii text := by
  obtain ⟨n, hn, rfl⟩ := h
  exact hn.ascii

/-- A number in ASCII is a number of JSON. -/
theorem NumberLiteral.WellFormed.of_ascii {n : NumberLiteral}
    (h : n.WellFormed Text.isDecimalDigit) (hascii : Ascii n.text) : n.WellFormed isDigit := by
  apply h.change
  intro c hc hdigit
  rwa [← ascii_digit (hascii c hc)]

def Exponent.value (e : Exponent) : Int :=
  if e.sign = some '-' then -(ofDigits e.digits : Int) else ofDigits e.digits

namespace NumberLiteral

def integer (n : NumberLiteral) : Int :=
  if n.minus then -(ofDigits n.whole : Int) else ofDigits n.whole

def numeral (n : NumberLiteral) : Number.Numeral :=
  .finite (ofDigits (n.whole ++ n.fraction.getD []))
    (n.exponent.elim 0 Exponent.value - (n.fraction.getD []).length)

def float (n : NumberLiteral) : Float :=
  if n.minus then -n.numeral.toFloat else n.numeral.toFloat

def FitsInt (n : NumberLiteral) : Prop :=
  n.fraction = none ∧ n.exponent = none ∧ Number.fitsInt64 n.integer = true

instance (n : NumberLiteral) : Decidable n.FitsInt :=
  inferInstanceAs (Decidable (_ ∧ _ ∧ _))

def value (n : NumberLiteral) : Value := if n.FitsInt then .int n.integer else .float n.float

/-- What is read of a number in the digits of any script: its value, or only its text. -/
def reading (n : NumberLiteral) : Value :=
  if Ascii n.text then n.value else .text (String.ofList n.text)

end NumberLiteral

section Denoted

open Number

variable {digit : Char → Bool} {n : NumberLiteral}

theorem readNat?_digits {text : List Char} (h : Digits isDigit text) :
    readNat? text = some (ofDigits text) := by
  have hall : text.all isDigit = true := List.all_eq_true.mpr h.2
  simp [readNat?, h.1, hall]

theorem readNat?_refuses {text : List Char} {c : Char} (hc : c ∈ text) (h : isDigit c = false) :
    readNat? text = none := by
  have hall : text.all isDigit = false := List.all_eq_false.mpr ⟨c, hc, by simp [h]⟩
  simp [readNat?, hall]

theorem splitSign_digit {c : Char} {rest : List Char} (h : isDigit c = true) :
    splitSign (c :: rest) = (false, c :: rest) := by
  unfold splitSign
  split
  · next heq =>
    cases heq
    simp [isDigit] at h
  · next heq =>
    cases heq
    simp [isDigit] at h
  · rfl

theorem Whole.first {text : List Char} (h : Whole digit text) :
    ∃ c rest, text = c :: rest ∧ isDigit c = true := by
  cases h with
  | zero => exact ⟨'0', [], rfl, by decide⟩
  | digits hc _ => exact ⟨_, _, rfl, first_digit hc⟩

theorem splitSign_text (h : n.WellFormed digit) : splitSign n.text = (n.minus, n.unsigned) := by
  obtain ⟨c, rest, hwhole, hc⟩ := h.whole.first
  unfold NumberLiteral.text
  cases n.minus with
  | true => rfl
  | false =>
    rw [NumberLiteral.unsigned, hwhole]
    exact splitSign_digit hc

theorem unsigned_of_whole (hf : n.fraction = none) (he : n.exponent = none) :
    n.unsigned = n.whole := by
  simp [NumberLiteral.unsigned, NumberLiteral.fractionText, NumberLiteral.exponentText, hf, he]

theorem Whole.digits_only {text : List Char} (h : Whole isDigit text) : Digits isDigit text := by
  cases h with
  | zero => exact ⟨by simp, by simp [isDigit]⟩
  | digits hc hrest => exact ⟨by simp, List.forall_mem_cons.mpr ⟨first_digit hc, hrest⟩⟩

theorem letter_not_digit {e : Exponent} (h : e.WellFormed digit) : isDigit e.letter = false := by
  rcases h.letter with hl | hl <;> rw [hl] <;> decide

theorem readNat?_unsigned_refuses (h : n.WellFormed digit)
    (hpart : ¬ (n.fraction = none ∧ n.exponent = none)) : readNat? n.unsigned = none := by
  have hparts : ∀ c ∈ n.fractionText ++ n.exponentText, c ∈ n.unsigned :=
    fun c hc => List.mem_append_right _ hc
  cases hf : n.fraction with
  | some digits =>
    refine readNat?_refuses (hparts '.' (List.mem_append_left _ ?_)) (by decide)
    simp [NumberLiteral.fractionText, hf]
  | none =>
    cases he : n.exponent with
    | some e =>
      refine readNat?_refuses (hparts e.letter (List.mem_append_right _ ?_))
        (letter_not_digit (h.exponent e he))
      simp [NumberLiteral.exponentText, he, Exponent.text]
    | none => exact absurd ⟨hf, he⟩ hpart

theorem readInt64?_text (h : n.WellFormed isDigit) :
    readInt64? (String.ofList n.text) = if n.FitsInt then some n.integer else none := by
  rw [readInt64?, String.toList_ofList, splitSign_text h]
  by_cases hpart : n.fraction = none ∧ n.exponent = none
  · have hread : readNat? n.unsigned = some (ofDigits n.whole) := by
      rw [unsigned_of_whole hpart.1 hpart.2]
      exact readNat?_digits h.whole.digits_only
    simp only [hread]
    simp only [NumberLiteral.FitsInt, hpart, true_and, NumberLiteral.integer]
  · simp only [readNat?_unsigned_refuses h hpart]
    rw [if_neg fun hfits => hpart ⟨hfits.1, hfits.2.1⟩]

theorem toLower_unchanged {c : Char} (h : c.toNat < 65 ∨ 90 < c.toNat) : c.toLower = c := by
  have hupper : ¬ (65 ≤ c.toNat ∧ c.toNat ≤ 90) := by omega
  exact dif_neg hupper

theorem toLower_digit {c : Char} (h : isDigit c = true) : c.toLower = c := by
  have hc := isDigit_iff.mp h
  exact toLower_unchanged (.inl (by omega))

theorem lower_ne_name {c d : Char} {rest name : List Char} (hc : isDigit c = true)
    (hd : isDigit d = false) : ((c :: rest).map Char.toLower == d :: name) = false := by
  have hne : c ≠ d := by
    rintro rfl
    simp [hc] at hd
  simp [toLower_digit hc, hne]

theorem span_digits {x y : List Char} (hx : ∀ c ∈ x, isDigit c = true)
    (hy : ∀ c ∈ y.head?, isDigit c = false) :
    (x ++ y).takeWhile isDigit = x ∧ (x ++ y).dropWhile isDigit = y := by
  rw [List.takeWhile_append_of_pos hx, List.dropWhile_append_of_pos hx]
  cases y with
  | nil => simp
  | cons c rest => simp [hy c rfl]

theorem splitSign_exponent {e : Exponent} (h : e.WellFormed isDigit) :
    splitSign (e.sign.toList ++ e.digits) = (decide (e.sign = some '-'), e.digits) := by
  cases hs : e.sign with
  | none =>
    obtain ⟨d, ds, hdigits⟩ := List.exists_cons_of_ne_nil h.digits.1
    have hd : isDigit d = true := h.digits.2 d (hdigits ▸ List.mem_cons_self)
    rw [hdigits]
    exact splitSign_digit hd
  | some c =>
    rcases h.sign c hs with rfl | rfl <;> rfl

theorem readExponent?_text {e : Exponent} (h : e.WellFormed isDigit) :
    readExponent? e.text = some e.value := by
  have hletter : (e.letter == 'e' || e.letter == 'E') = true := by simpa using h.letter
  rw [Exponent.text, readExponent?, if_pos hletter, splitSign_exponent h]
  simp only [readNat?_digits h.digits, decide_eq_true_eq]
  rfl

theorem exponentText_stops (h : n.WellFormed digit) :
    ∀ c ∈ n.exponentText.head?, isDigit c = false ∧ c ≠ '.' := by
  unfold NumberLiteral.exponentText
  cases he : n.exponent with
  | none => simp
  | some e =>
    have hletter := (h.exponent e he).letter
    simp only [Option.elim_some, Exponent.text, List.head?_cons, Option.mem_def,
      Option.some.injEq, forall_eq']
    rcases hletter with hl | hl <;> rw [hl] <;> decide

theorem readExponent?_exponentText (h : n.WellFormed isDigit) :
    readExponent? n.exponentText = some (n.exponent.elim 0 Exponent.value) := by
  unfold NumberLiteral.exponentText
  cases he : n.exponent with
  | none => rfl
  | some e => exact readExponent?_text (h.exponent e he)

theorem unsigned_ne_name {d : Char} {name : List Char} (h : n.WellFormed digit)
    (hd : isDigit d = false) : (n.unsigned.map Char.toLower == d :: name) = false := by
  obtain ⟨c, rest, hfirst, hc⟩ := h.whole.first
  rw [NumberLiteral.unsigned, hfirst]
  exact lower_ne_name hc hd

/-- Behind the whole digits there is no further digit. -/
theorem whole_stops (h : n.WellFormed digit) :
    ∀ c ∈ (n.fractionText ++ n.exponentText).head?, isDigit c = false := by
  rw [NumberLiteral.fractionText]
  cases n.fraction with
  | none => exact fun c hc => (exponentText_stops h c hc).1
  | some digits =>
    intro c hc
    obtain rfl : '.' = c := Option.some.inj hc
    decide

theorem read?_unsigned (h : n.WellFormed isDigit) :
    Numeral.read? n.unsigned = some n.numeral := by
  have hinf : (n.unsigned.map Char.toLower == "inf".toList) = false :=
    unsigned_ne_name h (by decide)
  have hinfinity : (n.unsigned.map Char.toLower == "infinity".toList) = false :=
    unsigned_ne_name h (by decide)
  have hnan : (n.unsigned.map Char.toLower == "nan".toList) = false :=
    unsigned_ne_name h (by decide)
  obtain ⟨hwhole, hrest⟩ := span_digits h.whole.digits_only.2 (whole_stops h)
  have hexp := readExponent?_exponentText h
  have hempty : n.whole.isEmpty = false := List.isEmpty_eq_false_iff.mpr h.whole.digits_only.1
  simp only [Numeral.read?, hinf, hinfinity, hnan, Bool.or_self, Bool.false_eq_true, ↓reduceIte]
  rw [NumberLiteral.unsigned, hwhole, hrest]
  simp only [hempty, Bool.false_and, Bool.false_eq_true, ↓reduceIte]
  unfold NumberLiteral.fractionText NumberLiteral.numeral
  cases hf : n.fraction with
  | some digits =>
    obtain ⟨htake, hdrop⟩ := span_digits (h.fraction digits hf).2
      (fun c hc => (exponentText_stops h c hc).1)
    simp only [Option.elim_some, List.cons_append, htake, hdrop, hexp, Option.map_some,
      Option.getD_some]
  | none =>
    have hpoint : ∀ rest, n.exponentText ≠ '.' :: rest :=
      fun rest heq => (exponentText_stops h '.' (by simp [heq])).2 rfl
    simp only [Option.elim_none, List.nil_append, Option.getD_none, hexp]
    rfl

theorem readFloat?_text (h : n.WellFormed isDigit) :
    readFloat? (String.ofList n.text) = some n.float := by
  rw [readFloat?, String.toList_ofList, splitSign_text h]
  simp only [read?_unsigned h, Option.map_some]
  rfl

/-- A number of JSON has the value it denotes. -/
theorem numberValue?_text (h : n.WellFormed isDigit) :
    numberValue? (String.ofList n.text) = some n.value := by
  rw [numberValue?, readInt64?_text h, readFloat?_text h, NumberLiteral.value]
  by_cases hfits : n.FitsInt <;> simp [hfits]

theorem readNat?_ascii {text : List Char} {k : Nat} (h : readNat? text = some k) : Ascii text := by
  intro c hc
  cases hdigit : isDigit c with
  | true => exact isDigit_ascii hdigit
  | false =>
    rw [readNat?_refuses hc hdigit] at h
    cases h

theorem splitSign_ascii {text : List Char} (h : Ascii (splitSign text).2) : Ascii text := by
  unfold splitSign at h
  split at h
  · exact .cons (by decide) h
  · exact .cons (by decide) h
  · exact h

theorem readInt64?_ascii {text : String} {k : Int} (h : readInt64? text = some k) :
    Ascii text.toList := by
  unfold readInt64? at h
  cases hread : readNat? (splitSign text.toList).2 with
  | none => simp [hread] at h
  | some k => exact splitSign_ascii (readNat?_ascii hread)

theorem readExponent?_ascii {text : List Char} {k : Int} (h : readExponent? text = some k) :
    Ascii text := by
  cases text with
  | nil => decide
  | cons c rest =>
    rw [readExponent?] at h
    split at h
    · next hletter =>
      obtain ⟨m, hm, -⟩ := Option.map_eq_some_iff.mp h
      obtain ⟨k, hk, -⟩ := Option.bind_eq_some_iff.mp hm
      have hletter : c = 'e' ∨ c = 'E' := by simpa using hletter
      refine .cons ?_ (splitSign_ascii (readNat?_ascii hk))
      rcases hletter with rfl | rfl <;> decide
    · cases h

theorem toLower_ascii {c : Char} (h : c.toLower.toNat < 128) : c.toNat < 128 := by
  by_cases hupper : c.toNat ≤ 90
  · omega
  · rwa [toLower_unchanged (.inr (by omega))] at h

theorem lower_ascii {text name : List Char} (h : (text.map Char.toLower == name) = true)
    (hname : Ascii name) : Ascii text := by
  intro c hc
  refine toLower_ascii (hname c.toLower ?_)
  rw [← eq_of_beq h]
  exact List.mem_map_of_mem hc

theorem takeWhile_ascii (text : List Char) : Ascii (text.takeWhile isDigit) :=
  fun c hc => isDigit_ascii (List.all_eq_true.mp List.all_takeWhile c hc)

theorem ascii_of_split {text : List Char} (h : Ascii (text.dropWhile isDigit)) : Ascii text := by
  rw [← List.takeWhile_append_dropWhile (p := isDigit) (l := text)]
  exact (takeWhile_ascii text).append h

theorem read?_ascii {text : List Char} {m : Numeral} (h : Numeral.read? text = some m) :
    Ascii text := by
  unfold Numeral.read? at h
  dsimp only at h
  split at h
  · next hname =>
    rcases Bool.or_eq_true _ _ ▸ hname with hname | hname
    · exact lower_ascii hname (by decide)
    · exact lower_ascii hname (by decide)
  split at h
  · next hname => exact lower_ascii hname (by decide)
  apply ascii_of_split
  split at h
  · next r hrest =>
    split at h
    · cases h
    · obtain ⟨k, hk, -⟩ := Option.map_eq_some_iff.mp h
      rw [hrest]
      exact .cons (by decide) (ascii_of_split (readExponent?_ascii hk))
  · split at h
    · cases h
    · obtain ⟨k, hk, -⟩ := Option.map_eq_some_iff.mp h
      exact readExponent?_ascii hk

theorem numberValue?_ascii {lexeme : String} {v : Value} (h : numberValue? lexeme = some v) :
    Ascii lexeme.toList := by
  unfold numberValue? at h
  split at h
  · next k hk => exact readInt64?_ascii hk
  · obtain ⟨x, hx, -⟩ := Option.map_eq_some_iff.mp h
    unfold readFloat? at hx
    obtain ⟨m, hm, -⟩ := Option.map_eq_some_iff.mp hx
    exact splitSign_ascii (read?_ascii hm)

theorem reading_eq (h : n.WellFormed Text.isDecimalDigit) :
    (numberValue? (String.ofList n.text)).getD (.text (String.ofList n.text)) = n.reading := by
  unfold NumberLiteral.reading
  by_cases hascii : Ascii n.text
  · rw [if_pos hascii, numberValue?_text (h.of_ascii hascii), Option.getD_some]
  · rw [if_neg hascii]
    cases hv : numberValue? (String.ofList n.text) with
    | none => rfl
    | some v =>
      have := numberValue?_ascii hv
      rw [String.toList_ofList] at this
      exact absurd this hascii

end Denoted

end TableLexer.Json
