import TableLexer.Json
import TableLexer.Proofs.Repetition

/-!
# String literals

The grammar of string literals between their quotes, with the text each one denotes, and what
the pattern and the decoder of the lexer make of them.
-/
namespace TableLexer.Json

def Plain (c : Char) : Prop := c ≠ '"' ∧ c ≠ '\\' ∧ 0x20 ≤ c.toNat

def escapes : List (Char × Char) :=
  [('"', '"'), ('\\', '\\'), ('/', '/'), ('b', '\x08'), ('f', '\x0c'), ('n', '\n'), ('r', '\r'),
    ('t', '\t')]

def lowerDigits : List Char := "0123456789abcdef".toList

def upperDigits : List Char := "0123456789ABCDEF".toList

def HexDigit (c : Char) (value : Nat) : Prop :=
  lowerDigits[value]? = some c ∨ upperDigits[value]? = some c

inductive Hex4 : List Char → Nat → Prop where
  | mk {a b c d : Char} {i j k m : Nat} (ha : HexDigit a i) (hb : HexDigit b j)
      (hc : HexDigit c k) (hd : HexDigit d m) :
      Hex4 [a, b, c, d] (i * 4096 + j * 256 + k * 16 + m)

/-- The body of a well-formed literal, with the text it denotes. Escaped surrogates come in
pairs. -/
inductive Denotes : List Char → List Char → Prop where
  | nil : Denotes [] []
  | plain {c body text} (hc : Plain c) (h : Denotes body text) : Denotes (c :: body) (c :: text)
  | escape {x c body text} (hx : (x, c) ∈ escapes) (h : Denotes body text) :
      Denotes ('\\' :: x :: body) (c :: text)
  | unit {digits n body text} (hn : Hex4 digits n) (hs : n < 0xD800 ∨ 0xE000 ≤ n)
      (h : Denotes body text) :
      Denotes ('\\' :: 'u' :: (digits ++ body)) (Char.ofNat n :: text)
  | pair {digits digits' high low body text} (hh : Hex4 digits high) (hl : Hex4 digits' low)
      (hhigh : 0xD800 ≤ high ∧ high < 0xDC00) (hlow : 0xDC00 ≤ low ∧ low < 0xE000)
      (h : Denotes body text) :
      Denotes ('\\' :: 'u' :: (digits ++ '\\' :: 'u' :: (digits' ++ body)))
        (Char.ofNat (0x10000 + (high - 0xD800) * 0x400 + (low - 0xDC00)) :: text)

def hexSet : Regex.CharSet :=
  .union (.range '0' '9') (.union (.range 'a' 'f') (.range 'A' 'F'))

theorem digits_checked : ∀ digits ∈ [lowerDigits, upperDigits], ∀ value < 16,
    (digits[value]?).all (fun c =>
      hexDigit? c == some value && c != '+' && hexSet.mem c) = true := by
  decide +kernel

theorem HexDigit.spec {c : Char} {value : Nat} (h : HexDigit c value) :
    value < 16 ∧ hexDigit? c = some value ∧ c ≠ '+' ∧ hexSet.mem c = true := by
  obtain ⟨digits, hd, hget⟩ : ∃ digits ∈ [lowerDigits, upperDigits], digits[value]? = some c := by
    rcases h with h | h
    · exact ⟨lowerDigits, by simp, h⟩
    · exact ⟨upperDigits, by simp, h⟩
  have hlen : digits.length = 16 := by
    simp only [List.mem_cons, List.not_mem_nil, or_false] at hd
    rcases hd with rfl | rfl <;> rfl
  have hlt : value < 16 := by
    have := (List.getElem?_eq_some_iff.mp hget).1
    omega
  have hall := digits_checked digits hd value hlt
  rw [hget] at hall
  simp only [Option.all_some, Bool.and_eq_true, beq_iff_eq, bne_iff_ne] at hall
  exact ⟨hlt, hall.1.1, hall.1.2, hall.2⟩

theorem Hex4.spec {digits : List Char} {n : Nat} (h : Hex4 digits n) :
    ∃ a b c d, digits = [a, b, c, d] ∧ hex4? a b c d = some n ∧ n < 0x10000 ∧
      ∀ x ∈ digits, hexSet.mem x = true := by
  cases h with
  | @mk a b c d i j k m ha hb hc hd =>
    obtain ⟨hi, hai, hplus, ha⟩ := ha.spec
    obtain ⟨hj, hbj, -, hb⟩ := hb.spec
    obtain ⟨hk, hck, -, hc⟩ := hc.spec
    obtain ⟨hm, hdm, -, hd⟩ := hd.spec
    refine ⟨a, b, c, d, rfl, ?_, by omega, ?_⟩
    · simp only [hex4?, hplus, ↓reduceIte, hai, hbj, hck, hdm, Option.some.injEq]
      omega
    · simp [ha, hb, hc, hd]

theorem Hex4.lt {digits : List Char} {n : Nat} (h : Hex4 digits n) : n < 0x10000 := by
  obtain ⟨_, _, _, _, -, -, hlt, -⟩ := h.spec
  exact hlt

theorem unit?_eq {n : Nat} (hs : n < 0xD800 ∨ 0xE000 ≤ n) (hn : n < 0x110000) :
    unit? n = some (Char.ofNat n) := by
  have hv : n.isValidChar := by
    unfold Nat.isValidChar
    omega
  simp [unit?, hv]

theorem simpleEscape?_eq {x c : Char} (h : (x, c) ∈ escapes) :
    simpleEscape? x = some c ∧ x ≠ 'u' := by
  simp only [escapes, List.mem_cons, Prod.mk.injEq, List.not_mem_nil, or_false] at h
  rcases h with ⟨rfl, rfl⟩ | ⟨rfl, rfl⟩ | ⟨rfl, rfl⟩ | ⟨rfl, rfl⟩ | ⟨rfl, rfl⟩ | ⟨rfl, rfl⟩ |
    ⟨rfl, rfl⟩ | ⟨rfl, rfl⟩ <;> exact ⟨rfl, by decide⟩

theorem decode?_plain {c : Char} (hc : c ≠ '\\') (body : List Char) :
    decode? none (c :: body) = prepend? (some c) (decode? none body) := by
  rw [decode?]
  · simp [hc]
  · intro _ _ _ _ _ h
    exact absurd h hc
  · intro _ _ h
    exact absurd h hc

theorem decode?_escape {x : Char} (hx : x ≠ 'u') (body : List Char) :
    decode? none ('\\' :: x :: body) = prepend? (simpleEscape? x) (decode? none body) := by
  rw [decode?]
  · rfl
  · intro _ _ _ _ _ h
    exact absurd h hx

/-- An escaped code unit stands for itself, or begins a pair. -/
theorem decode?_unit {digits : List Char} {n : Nat} (h : Hex4 digits n) (body : List Char) :
    decode? none ('\\' :: 'u' :: (digits ++ body)) =
      if isHigh n then decode? (some n) body else prepend? (unit? n) (decode? none body) := by
  obtain ⟨a, b, c, d, rfl, hx, -, -⟩ := h.spec
  exact decode?.eq_4 a b c d body n hx

/-- Behind the first half of a pair, an escaped code unit is the second half. -/
theorem decode?_second {digits : List Char} {n : Nat} (h : Hex4 digits n) (high : Nat)
    (body : List Char) :
    decode? (some high) ('\\' :: 'u' :: (digits ++ body)) =
      prepend? (pair? high n) (decode? none body) := by
  obtain ⟨a, b, c, d, rfl, hx, -, -⟩ := h.spec
  exact decode?.eq_3 a b c d body n high hx

theorem Denotes.decoded {body text : List Char} (h : Denotes body text) :
    unescape? body = some text := by
  unfold unescape?
  induction h with
  | nil => rfl
  | plain hc h ih =>
    rw [decode?_plain hc.2.1, ih]
    rfl
  | escape hx h ih =>
    obtain ⟨hesc, hu⟩ := simpleEscape?_eq hx
    rw [decode?_escape hu, hesc, ih]
    rfl
  | @unit digits n body text hn hs h ih =>
    have hlt := hn.lt
    have hhigh : isHigh n = false := by
      simp only [isHigh, decide_eq_false_iff_not]
      omega
    rw [decode?_unit hn, hhigh, unit?_eq hs (by omega), ih]
    rfl
  | @pair digits digits' high low body text hh hl hhigh hlow h ih =>
    have hsome : isHigh high = true := by simpa [isHigh] using hhigh
    have hlow' : isLow low = true := by simpa [isLow] using hlow
    rw [decode?_unit hh, hsome, if_pos rfl, decode?_second hl, ih, pair?, hsome, hlow']
    simp only [Bool.and_self, ↓reduceIte]
    rw [unit?_eq (by omega) (by omega)]
    rfl

def blanks (body : List Char) : Nat := (body.takeWhile (· = ' ')).length

theorem blanks_cons (c : Char) (body : List Char) :
    blanks (c :: body) = if c = ' ' then blanks body + 1 else 0 := by
  by_cases hc : c = ' ' <;> simp [blanks, hc]

theorem blanks_split (body : List Char) :
    body = List.replicate (blanks body) ' ' ++ body.drop (blanks body) := by
  induction body with
  | nil => rfl
  | cons c body ih =>
    rw [blanks_cons]
    by_cases hc : c = ' '
    · simpa [hc, List.replicate_succ] using ih
    · simp [hc]

theorem head_ne_blank (body : List Char) : (body.drop (blanks body)).head? ≠ some ' ' := by
  induction body with
  | nil => simp
  | cons c body ih =>
    rw [blanks_cons]
    by_cases hc : c = ' '
    · simpa [hc] using ih
    · simp [hc]

theorem blanks_eq_zero_iff (body : List Char) : blanks body = 0 ↔ body.head? ≠ some ' ' := by
  cases body with
  | nil => simp [blanks]
  | cons c body =>
    rw [blanks_cons]
    by_cases hc : c = ' ' <;> simp [hc]

/-- Without its blanks at the start, a body denotes the text without as many characters. -/
theorem Denotes.drop_blanks {body text : List Char} (h : Denotes body text) :
    Denotes (body.drop (blanks body)) (text.drop (blanks body)) := by
  induction h with
  | nil => exact .nil
  | @plain c body text hc h ih =>
    rw [blanks_cons]
    by_cases hb : c = ' '
    · simpa [hb] using ih
    · simpa [hb] using Denotes.plain hc h
  | escape hx h _ => exact .escape hx h
  | unit hn hs h _ => exact .unit hn hs h
  | pair hh hl hhigh hlow h _ => exact .pair hh hl hhigh hlow h

theorem hexSet_printable {c : Char} (h : hexSet.mem c = true) : 0x20 ≤ c.toNat := by
  simp only [hexSet, Regex.CharSet.mem, Bool.or_eq_true, decide_eq_true_eq] at h
  rcases h with ⟨hle, -⟩ | ⟨hle, -⟩ | ⟨hle, -⟩
  · exact Nat.le_trans (by decide) (show '0'.toNat ≤ c.toNat from hle)
  · exact Nat.le_trans (by decide) (show 'a'.toNat ≤ c.toNat from hle)
  · exact Nat.le_trans (by decide) (show 'A'.toNat ≤ c.toNat from hle)

theorem escapes_printable : ∀ pair ∈ escapes, 0x20 ≤ pair.1.toNat := by decide

theorem Denotes.printable {body text : List Char} (h : Denotes body text) :
    ∀ c ∈ body, 0x20 ≤ c.toNat := by
  have hslash : 0x20 ≤ '\\'.toNat := by decide
  have hu : 0x20 ≤ 'u'.toNat := by decide
  have hdigits : ∀ {digits n}, Hex4 digits n → ∀ c ∈ digits, 0x20 ≤ c.toNat := by
    intro digits n hn c hc
    obtain ⟨_, _, _, _, -, -, -, hmem⟩ := hn.spec
    exact hexSet_printable (hmem c hc)
  induction h with
  | nil => simp
  | plain hc h ih => exact List.forall_mem_cons.mpr ⟨hc.2.2, ih⟩
  | escape hx h ih =>
    simp only [List.forall_mem_cons]
    exact ⟨hslash, escapes_printable _ hx, ih⟩
  | unit hn hs h ih =>
    simp only [List.forall_mem_cons, List.forall_mem_append]
    exact ⟨hslash, hu, hdigits hn, ih⟩
  | pair hh hl hhigh hlow h ih =>
    simp only [List.forall_mem_cons, List.forall_mem_append]
    exact ⟨hslash, hu, hdigits hh, hslash, hu, hdigits hl, ih⟩

def plainSet : Regex.CharSet :=
  .compl (.union (.singleton '"') (.union (.singleton '\\') (.range '\x00' '\x1f')))

def escapeSet : Regex.CharSet :=
  .union (.singleton '"') (.union (.singleton '\\') (.union (.singleton '/')
    (.union (.singleton 'b') (.union (.singleton 'f') (.union (.singleton 'n')
      (.union (.singleton 'r') (.singleton 't')))))))

def pieceRegex : Regex :=
  .alt (.set plainSet)
    (.seq (.set (.singleton '\\'))
      (.alt (.set escapeSet)
        (.seq (.set (.singleton 'u')) (.rep 4 (some 4) true (.set hexSet)))))

def stringPattern : Pattern :=
  .regex
    { source := stringSource
      regex := .seq (.rep 0 none true pieceRegex) (.set (.singleton '"'))
      spansLines := false }

theorem stringPattern_source : (Pattern.ofRegex stringSource).toOption = some stringPattern := by
  decide +kernel

inductive Piece : List Char → Prop where
  | plain {c} (hc : Plain c) : Piece [c]
  | escape {x c} (hx : (x, c) ∈ escapes) : Piece ['\\', x]
  | unit {digits n} (hn : Hex4 digits n) : Piece ('\\' :: 'u' :: digits)

theorem Denotes.pieces {body text : List Char} (h : Denotes body text) :
    ∃ pieces : List (List Char), (∀ p ∈ pieces, Piece p) ∧ pieces.flatten = body := by
  induction h with
  | nil => exact ⟨[], by simp, rfl⟩
  | @plain c body text hc h ih =>
    obtain ⟨pieces, hp, rfl⟩ := ih
    exact ⟨[c] :: pieces, by simpa using ⟨.plain hc, hp⟩, rfl⟩
  | @escape x c body text hx h ih =>
    obtain ⟨pieces, hp, rfl⟩ := ih
    exact ⟨['\\', x] :: pieces, by simpa using ⟨.escape hx, hp⟩, rfl⟩
  | @unit digits n body text hn hs h ih =>
    obtain ⟨pieces, hp, rfl⟩ := ih
    exact ⟨('\\' :: 'u' :: digits) :: pieces, by simpa using ⟨.unit hn, hp⟩, rfl⟩
  | @pair digits digits' high low body text hh hl hhigh hlow h ih =>
    obtain ⟨pieces, hp, rfl⟩ := ih
    refine ⟨('\\' :: 'u' :: digits) :: ('\\' :: 'u' :: digits') :: pieces, ?_, by simp⟩
    simpa using ⟨.unit hh, .unit hl, hp⟩

section Taken

open Regex (Takes Refuses)

variable {β : Type}

theorem plainSet_mem {c : Char} (h : Plain c) : plainSet.mem c = true := by
  obtain ⟨hquote, hslash, hc⟩ := h
  have hcontrol : ¬ c ≤ '\x1f' := by
    intro hle
    have hle : c.toNat ≤ 0x1f := hle
    omega
  simp [plainSet, Regex.CharSet.mem, hquote, hslash, hcontrol]

theorem escapeSet_mem {x c : Char} (h : (x, c) ∈ escapes) : escapeSet.mem x = true := by
  simp only [escapes, List.mem_cons, Prod.mk.injEq, List.not_mem_nil, or_false] at h
  rcases h with ⟨rfl, rfl⟩ | ⟨rfl, rfl⟩ | ⟨rfl, rfl⟩ | ⟨rfl, rfl⟩ | ⟨rfl, rfl⟩ | ⟨rfl, rfl⟩ |
    ⟨rfl, rfl⟩ | ⟨rfl, rfl⟩ <;> rfl

theorem backslash_refused (rest : List Char) :
    Refuses (β := β) (Regex.run (.set plainSet)) ('\\' :: rest) := Regex.refuses_set (by decide)

theorem Piece.taken {p : List Char} (h : Piece p) :
    p ≠ [] ∧ Takes (β := β) pieceRegex.run p := by
  cases h with
  | plain hc => exact ⟨by simp, Regex.takes_alt_left (Regex.takes_set (plainSet_mem hc))⟩
  | @escape x c hx =>
    refine ⟨by simp, Regex.takes_alt_right (fun rest => backslash_refused _) ?_⟩
    have hslash : Takes (β := β) (Regex.run (.set (.singleton '\\'))) ['\\'] :=
      Regex.takes_set (by decide)
    exact Regex.takes_seq hslash
      (Regex.takes_alt_left (Regex.takes_set (escapeSet_mem hx)))
  | @unit digits n hn =>
    obtain ⟨a, b, c, d, rfl, -, -, hmem⟩ := hn.spec
    refine ⟨by simp, Regex.takes_alt_right (fun rest => backslash_refused _) ?_⟩
    have hslash : Takes (β := β) (Regex.run (.set (.singleton '\\'))) ['\\'] :=
      Regex.takes_set (by decide)
    have hu : Takes (β := β) (Regex.run (.set (.singleton 'u'))) ['u'] :=
      Regex.takes_set (by decide)
    have hdigits : Takes (β := β) (Regex.run (.rep 4 (some 4) true (.set hexSet)))
        [a, b, c, d] := by
      have hall : ∀ p ∈ [[a], [b], [c], [d]], Takes (β := β) (Regex.run (.set hexSet)) p := by
        simp only [List.mem_cons, List.not_mem_nil, or_false, forall_eq_or_imp, forall_eq]
          at hmem ⊢
        exact ⟨Regex.takes_set hmem.1, Regex.takes_set hmem.2.1, Regex.takes_set hmem.2.2.1,
          Regex.takes_set hmem.2.2.2⟩
      exact Regex.takes_exactly hall
    refine Regex.takes_seq hslash (Regex.takes_alt_right ?_ (Regex.takes_seq hu hdigits))
    intro rest
    exact Regex.refuses_set (by decide)

theorem quote_refused (rest : List Char) :
    Refuses (β := β) pieceRegex.run ('"' :: rest) :=
  Regex.refuses_alt (Regex.refuses_set (by decide))
    (Regex.refuses_seq (Regex.refuses_set (by decide)))

end Taken

/-- The pattern takes a well-formed body up to and with its closing quote. -/
theorem Denotes.matched {body text : List Char} (h : Denotes body text) {input rest : List Char}
    {i : Nat} (hi : input.drop i = body ++ '"' :: rest) :
    stringPattern.matchAt? input i = some (body.length + 1) := by
  obtain ⟨pieces, hp, rfl⟩ := h.pieces
  have hlen : ¬ input.length < i := by
    intro hlt
    rw [List.drop_eq_nil_of_le (by omega)] at hi
    simp at hi
  simp only [stringPattern, Pattern.matchAt?, hlen, ↓reduceIte, Regex.matchAt?, Regex.run,
    Regex.repeated]
  apply Regex.star_takes (fun p hmem => (hp p hmem).taken) (quote_refused rest) hi
  intro next hoff hrest
  have hoff : next.offset = i + pieces.flatten.length := hoff
  simp only [hrest, Regex.CharSet.mem_singleton, decide_true, ↓reduceIte, Regex.Cursor.advance,
    hoff, Option.some.injEq]
  omega

end TableLexer.Json
