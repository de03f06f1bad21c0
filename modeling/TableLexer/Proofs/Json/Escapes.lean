import TableLexer.Proofs.Json.Literals

/-!
# Escapes and what they denote

The body of a string literal is decoded if and only if each escaped surrogate has its other half
next to it; then the outcome is what the body denotes. Every way to write a text with escapes is
decoded to that text.
-/
namespace TableLexer.Json

def WritesUnit (p : List Char) (n : Nat) : Prop :=
  ∃ digits, Hex4 digits n ∧ p = '\\' :: 'u' :: digits

def High (p : List Char) : Prop := ∃ n, WritesUnit p n ∧ 0xD800 ≤ n ∧ n < 0xDC00

def Low (p : List Char) : Prop := ∃ n, WritesUnit p n ∧ 0xDC00 ≤ n ∧ n < 0xE000

/-- Each escaped surrogate is part of a pair of neighbours. -/
structure SurrogatesPaired (pieces : List (List Char)) : Prop where
  high : ∀ i p, pieces[i]? = some p → High p → ∃ q, pieces[i + 1]? = some q ∧ Low q
  low : ∀ i q, pieces[i]? = some q → Low q → ∃ j p, i = j + 1 ∧ pieces[j]? = some p ∧ High p

variable {p q body text digits : List Char} {pieces rest : List (List Char)} {n m : Nat}

theorem WritesUnit.unique (h : WritesUnit p n) (k : WritesUnit p m) : n = m := by
  obtain ⟨digits, hn, rfl⟩ := h
  obtain ⟨digits', hm, he⟩ := k
  obtain rfl : digits = digits' := by simpa using he
  obtain ⟨a, b, c, d, rfl, hn, -⟩ := hn.spec
  obtain ⟨a', b', c', d', he, hm, -⟩ := hm.spec
  obtain ⟨rfl, rfl, rfl, rfl⟩ : a = a' ∧ b = b' ∧ c = c' ∧ d = d' := by simpa using he
  exact Option.some.inj (hn.symm.trans hm)

theorem High.not_low (h : High p) : ¬ Low p := by
  rintro ⟨m, hm, hle, -⟩
  obtain ⟨n, hn, -, hlt⟩ := h
  have := hn.unique hm
  omega

namespace SurrogatesPaired

theorem nil : SurrogatesPaired [] := ⟨by simp, by simp⟩

theorem cons_iff (hh : ¬ High p) (hl : ¬ Low p) :
    SurrogatesPaired (p :: rest) ↔ SurrogatesPaired rest := by
  constructor
  · intro h
    constructor
    · exact fun i q hq => h.high (i + 1) q hq
    · intro i q hq hlow
      obtain ⟨j, r, hj, hr, hhigh⟩ := h.low (i + 1) q hq hlow
      obtain rfl : i = j := Nat.succ.inj hj
      cases i with
      | zero =>
        obtain rfl : p = r := by simpa using hr
        exact absurd hhigh hh
      | succ i => exact ⟨i, r, rfl, hr, hhigh⟩
  · intro h
    constructor
    · rintro (_ | i) q hq hhigh
      · obtain rfl : p = q := by simpa using hq
        exact absurd hhigh hh
      · exact h.high i q hq hhigh
    · rintro (_ | i) q hq hlow
      · obtain rfl : p = q := by simpa using hq
        exact absurd hlow hl
      · obtain ⟨j, r, rfl, hr, hhigh⟩ := h.low i q hq hlow
        exact ⟨j + 1, r, rfl, hr, hhigh⟩

theorem not_low_cons (hl : Low p) : ¬ SurrogatesPaired (p :: rest) := by
  intro h
  obtain ⟨j, -, hj, -⟩ := h.low 0 p rfl hl
  exact absurd hj (Nat.succ_ne_zero j).symm

theorem low_of_high_cons (hh : High p) (h : SurrogatesPaired (p :: rest)) :
    ∃ q others, rest = q :: others ∧ Low q := by
  obtain ⟨q, hq, hlow⟩ := h.high 0 p rfl hh
  cases rest with
  | nil => simp at hq
  | cons r others =>
    obtain rfl : r = q := by simpa using hq
    exact ⟨r, others, rfl, hlow⟩

theorem pair_iff (hh : High p) (hl : Low q) :
    SurrogatesPaired (p :: q :: rest) ↔ SurrogatesPaired rest := by
  constructor
  · intro h
    constructor
    · exact fun i r hr => h.high (i + 2) r hr
    · intro i r hr hlow
      obtain ⟨j, s, hj, hs, hhigh⟩ := h.low (i + 2) r hr hlow
      obtain rfl : i + 1 = j := Nat.succ.inj hj
      cases i with
      | zero =>
        obtain rfl : q = s := by simpa using hs
        exact absurd hl hhigh.not_low
      | succ i => exact ⟨i, s, rfl, hs, hhigh⟩
  · intro h
    constructor
    · rintro (_ | _ | i) r hr hhigh
      · exact ⟨q, rfl, hl⟩
      · obtain rfl : q = r := by simpa using hr
        exact absurd hl hhigh.not_low
      · exact h.high i r hr hhigh
    · rintro (_ | _ | i) r hr hlow
      · obtain rfl : p = r := by simpa using hr
        exact absurd hlow hh.not_low
      · exact ⟨0, p, rfl, rfl, hh⟩
      · obtain ⟨j, s, rfl, hs, hhigh⟩ := h.low i r hr hlow
        exact ⟨j + 2, s, rfl, hs, hhigh⟩

end SurrogatesPaired

structure StandsFor (p : List Char) (c : Char) : Prop where
  denotes : ∀ {body text}, Denotes body text → Denotes (p ++ body) (c :: text)
  decoded : ∀ body, decode? none (p ++ body) = prepend? (some c) (decode? none body)
  refused : ∀ high body, decode? (some high) (p ++ body) = none

theorem decode?_plain_second {c : Char} (hc : c ≠ '\\') (high : Nat) (body : List Char) :
    decode? (some high) (c :: body) = none := by
  rw [decode?]
  · simp
  · intro _ _ _ _ _ h
    exact absurd h hc
  · intro _ _ h
    exact absurd h hc

theorem decode?_escape_second {x : Char} (hx : x ≠ 'u') (high : Nat) (body : List Char) :
    decode? (some high) ('\\' :: x :: body) = none := by
  rw [decode?]
  · simp
  · intro _ _ _ _ _ h
    exact absurd h hx

theorem not_isHigh (h : n < 0xD800 ∨ 0xDC00 ≤ n) : isHigh n = false := by
  simp only [isHigh, decide_eq_false_iff_not]
  omega

theorem decode?_unit_second (hn : Hex4 digits n) (h : n < 0xDC00 ∨ 0xE000 ≤ n) (high : Nat)
    (body : List Char) : decode? (some high) ('\\' :: 'u' :: digits ++ body) = none := by
  have hlow : isLow n = false := by
    simp only [isLow, decide_eq_false_iff_not]
    omega
  exact (decode?_second hn high body).trans (by simp [pair?, hlow, prepend?])

theorem standsFor_plain {c : Char} (hc : Plain c) : StandsFor [c] c where
  denotes h := .plain hc h
  decoded := decode?_plain hc.2.1
  refused := decode?_plain_second hc.2.1

theorem standsFor_escape {x c : Char} (hx : (x, c) ∈ escapes) : StandsFor ['\\', x] c where
  denotes h := .escape hx h
  decoded body := by
    obtain ⟨hesc, hu⟩ := simpleEscape?_eq hx
    rw [← hesc]
    exact decode?_escape hu body
  refused := decode?_escape_second (simpleEscape?_eq hx).2

theorem standsFor_unit (hn : Hex4 digits n) (hs : n < 0xD800 ∨ 0xE000 ≤ n) :
    StandsFor ('\\' :: 'u' :: digits) (Char.ofNat n) where
  denotes h := .unit hn hs h
  decoded body := by
    have hlt := hn.lt
    have hhigh : isHigh n = false := not_isHigh (by omega)
    rw [← unit?_eq hs (by omega)]
    exact (decode?_unit hn body).trans (by simp [hhigh])
  refused := decode?_unit_second hn (by omega)

theorem no_surrogate (h : ∀ n, ¬ WritesUnit p n) : ¬ High p ∧ ¬ Low p :=
  ⟨fun ⟨n, hn, _⟩ => h n hn, fun ⟨n, hn, _⟩ => h n hn⟩

/-- A piece stands for a character, or is half of a pair. -/
theorem Piece.cases (h : Piece p) :
    (∃ c, StandsFor p c) ∧ ¬ High p ∧ ¬ Low p ∨ High p ∨ Low p := by
  cases h with
  | @plain c hc =>
    refine .inl ⟨⟨c, standsFor_plain hc⟩, no_surrogate ?_⟩
    rintro n ⟨digits, -, he⟩
    simp at he
  | @escape x c hx =>
    refine .inl ⟨⟨c, standsFor_escape hx⟩, no_surrogate ?_⟩
    rintro n ⟨digits, -, he⟩
    exact (simpleEscape?_eq hx).2 (List.cons.inj (List.cons.inj he).2).1
  | @unit digits n hn =>
    have hwrites : WritesUnit ('\\' :: 'u' :: digits) n := ⟨digits, hn, rfl⟩
    by_cases hhigh : 0xD800 ≤ n ∧ n < 0xDC00
    · exact .inr (.inl ⟨n, hwrites, hhigh⟩)
    by_cases hlow : 0xDC00 ≤ n ∧ n < 0xE000
    · exact .inr (.inr ⟨n, hwrites, hlow⟩)
    refine .inl ⟨⟨_, standsFor_unit hn (by omega)⟩, ?_, ?_⟩
    · rintro ⟨m, hm, hrange⟩
      exact hhigh (hm.unique hwrites ▸ hrange)
    · rintro ⟨m, hm, hrange⟩
      exact hlow (hm.unique hwrites ▸ hrange)

theorem High.decoded (h : High p) :
    ∃ high, ∀ body, decode? none (p ++ body) = decode? (some high) body := by
  obtain ⟨n, ⟨digits, hn, rfl⟩, hrange⟩ := h
  have hhigh : isHigh n = true := by simpa [isHigh] using hrange
  exact ⟨n, fun body => (decode?_unit hn body).trans (by simp [hhigh])⟩

theorem Low.refused (h : Low p) (body : List Char) : decode? none (p ++ body) = none := by
  obtain ⟨n, ⟨digits, hn, rfl⟩, hrange⟩ := h
  have hhigh : isHigh n = false := not_isHigh (by omega)
  have hvalid : ¬ n.isValidChar := by
    unfold Nat.isValidChar
    omega
  exact (decode?_unit hn body).trans (by simp [hhigh, unit?, hvalid, prepend?])

/-- Behind a first half nothing but a second half is accepted. -/
theorem Piece.refused_of_not_low (h : Piece p) (hl : ¬ Low p) (high : Nat) (body : List Char) :
    decode? (some high) (p ++ body) = none := by
  rcases h.cases with ⟨⟨c, hc⟩, -⟩ | ⟨n, ⟨digits, hn, rfl⟩, hrange⟩ | hlow
  · exact hc.refused high body
  · exact decode?_unit_second hn (by omega) high body
  · exact absurd hlow hl

theorem High.denotes (hh : High p) (hl : Low q) (h : Denotes body text) :
    ∃ c, Denotes (p ++ (q ++ body)) (c :: text) := by
  obtain ⟨high, ⟨digits, hn, rfl⟩, hhigh⟩ := hh
  obtain ⟨low, ⟨digits', hm, rfl⟩, hlow⟩ := hl
  exact ⟨_, .pair hn hm hhigh hlow h⟩

/-- A body denotes a text if its surrogates are paired, and else is refused. The induction is on
the number of its pieces, two of which make up a pair. -/
theorem decoded_or_refused (h : ∀ p ∈ pieces, Piece p) :
    SurrogatesPaired pieces ∧ (∃ text, Denotes pieces.flatten text) ∨
      ¬ SurrogatesPaired pieces ∧ unescape? pieces.flatten = none := by
  unfold unescape?
  induction hlen : pieces.length using Nat.strongRecOn generalizing pieces with
  | _ length ih =>
    cases pieces with
    | nil => exact .inl ⟨.nil, [], .nil⟩
    | cons p rest =>
      obtain ⟨hp, hrest⟩ := List.forall_mem_cons.mp h
      rw [List.length_cons] at hlen
      rw [List.flatten_cons]
      rcases hp.cases with ⟨⟨c, hc⟩, hh, hl⟩ | hh | hl
      · rw [SurrogatesPaired.cons_iff hh hl]
        rcases ih rest.length (by omega) hrest rfl with ⟨hpaired, text, htext⟩ | ⟨hodd, hnone⟩
        · exact .inl ⟨hpaired, c :: text, hc.denotes htext⟩
        · exact .inr ⟨hodd, by rw [hc.decoded, hnone]; rfl⟩
      · obtain ⟨high, hdecode⟩ := hh.decoded
        rw [hdecode]
        cases rest with
        | nil =>
          refine .inr ⟨fun hpaired => ?_, rfl⟩
          obtain ⟨q, others, hq, -⟩ := hpaired.low_of_high_cons hh
          cases hq
        | cons q others =>
          obtain ⟨hq, hothers⟩ := List.forall_mem_cons.mp hrest
          rw [List.length_cons] at hlen
          rw [List.flatten_cons]
          by_cases hl : Low q
          · rw [SurrogatesPaired.pair_iff hh hl]
            rcases ih others.length (by omega) hothers rfl with
              ⟨hpaired, text, htext⟩ | ⟨hodd, hnone⟩
            · obtain ⟨c, hc⟩ := hh.denotes hl htext
              exact .inl ⟨hpaired, c :: text, hc⟩
            · refine .inr ⟨hodd, ?_⟩
              obtain ⟨low, ⟨digits, hn, rfl⟩, -⟩ := hl
              exact (decode?_second hn high others.flatten).trans (by
                rw [hnone]
                cases pair? high low <;> rfl)
          · refine .inr ⟨fun hpaired => ?_, hq.refused_of_not_low hl high _⟩
            obtain ⟨_, _, he, hlow⟩ := hpaired.low_of_high_cons hh
            cases he
            exact hl hlow
      · exact .inr ⟨SurrogatesPaired.not_low_cons hl, hl.refused _⟩

/-- The ways to write a character in a literal. A character beyond the first 0x10000 is written
as a surrogate pair if it is escaped. -/
inductive Written : Char → List Char → Prop where
  | plain {c} (hc : Plain c) : Written c [c]
  | escape {x c} (hx : (x, c) ∈ escapes) : Written c ['\\', x]
  | unit {c digits} (hn : Hex4 digits c.toNat) : Written c ('\\' :: 'u' :: digits)
  | pair {c digits digits'} (hc : 0x10000 ≤ c.toNat)
      (hh : Hex4 digits (0xD800 + (c.toNat - 0x10000) / 0x400))
      (hl : Hex4 digits' (0xDC00 + (c.toNat - 0x10000) % 0x400)) :
      Written c ('\\' :: 'u' :: (digits ++ '\\' :: 'u' :: digits'))

inductive Escaping : List Char → List Char → Prop where
  | nil : Escaping [] []
  | cons {c written text body} (hc : Written c written) (h : Escaping text body) :
      Escaping (c :: text) (written ++ body)

theorem toNat_range (c : Char) :
    c.toNat < 0xD800 ∨ 0xE000 ≤ c.toNat ∧ c.toNat < 0x110000 := by
  have hv : c.toNat.isValidChar := c.valid
  unfold Nat.isValidChar at hv
  omega

theorem Written.denotes {c : Char} {written : List Char} (hc : Written c written)
    (h : Denotes body text) : Denotes (written ++ body) (c :: text) := by
  cases hc with
  | plain hc => exact .plain hc h
  | escape hx => exact .escape hx h
  | unit hn =>
    have hunit := Denotes.unit hn ((toNat_range c).imp_right And.left) h
    rwa [Char.ofNat_toNat] at hunit
  | @pair _ digits digits' hc hh hl =>
    have hrange := toNat_range c
    have hpair := Denotes.pair hh hl (by omega) (by omega) h
    have hvalue : 0x10000 + (0xD800 + (c.toNat - 0x10000) / 0x400 - 0xD800) * 0x400 +
        (0xDC00 + (c.toNat - 0x10000) % 0x400 - 0xDC00) = c.toNat := by omega
    rw [hvalue, Char.ofNat_toNat] at hpair
    simpa using hpair

theorem Escaping.denotes (h : Escaping text body) : Denotes body text := by
  induction h with
  | nil => exact .nil
  | cons hc h ih => exact hc.denotes ih

theorem exists_hex4 (hn : n < 0x10000) : ∃ digits, Hex4 digits n := by
  have hdigit : ∀ value, value < 16 → ∃ c, HexDigit c value := by
    intro value hvalue
    have hlen : value < lowerDigits.length := hvalue
    exact ⟨lowerDigits[value], .inl (List.getElem?_eq_getElem hlen)⟩
  obtain ⟨a, ha⟩ := hdigit (n / 4096) (by omega)
  obtain ⟨b, hb⟩ := hdigit (n / 256 % 16) (by omega)
  obtain ⟨c, hc⟩ := hdigit (n / 16 % 16) (by omega)
  obtain ⟨d, hd⟩ := hdigit (n % 16) (by omega)
  have hvalue : n / 4096 * 4096 + n / 256 % 16 * 256 + n / 16 % 16 * 16 + n % 16 = n := by omega
  exact ⟨[a, b, c, d], hvalue ▸ .mk ha hb hc hd⟩

/-- Every character can be escaped. -/
theorem exists_written (c : Char) : ∃ written, Written c written := by
  have hrange := toNat_range c
  by_cases hc : c.toNat < 0x10000
  · obtain ⟨digits, hn⟩ := exists_hex4 hc
    exact ⟨_, .unit hn⟩
  · obtain ⟨digits, hh⟩ := exists_hex4 (n := 0xD800 + (c.toNat - 0x10000) / 0x400) (by omega)
    obtain ⟨digits', hl⟩ := exists_hex4 (n := 0xDC00 + (c.toNat - 0x10000) % 0x400) (by omega)
    exact ⟨_, .pair (by omega) hh hl⟩

theorem exists_escaping (text : List Char) : ∃ body, Escaping text body := by
  induction text with
  | nil => exact ⟨[], .nil⟩
  | cons c text ih =>
    obtain ⟨body, hbody⟩ := ih
    obtain ⟨written, hc⟩ := exists_written c
    exact ⟨_, .cons hc hbody⟩

/-- A body made of plain characters and escapes is decoded to the text it denotes if its escaped
surrogates come in pairs, and is refused otherwise. In particular every text has bodies that are
ways to write it, and all of them are decoded to it. -/
theorem escapes_decoded (h : ∀ p ∈ pieces, Piece p) :
    (SurrogatesPaired pieces → ∃ text, unescape? pieces.flatten = some text ∧
      Denotes pieces.flatten text) ∧
    (¬ SurrogatesPaired pieces → unescape? pieces.flatten = none) ∧
    ∀ text, (∃ body, Escaping text body) ∧
      ∀ body, Escaping text body → unescape? body = some text := by
  refine ⟨fun hpaired => ?_, fun hodd => ?_, fun text => ⟨exists_escaping text, ?_⟩⟩
  · rcases decoded_or_refused h with ⟨-, text, htext⟩ | ⟨hodd, -⟩
    · exact ⟨text, htext.decoded, htext⟩
    · exact absurd hpaired hodd
  · rcases decoded_or_refused h with ⟨hpaired, -⟩ | ⟨-, hnone⟩
    · exact absurd hpaired hodd
    · exact hnone
  · exact fun body hbody => hbody.denotes.decoded

/-- The first half of a pair may not come twice, although a second half follows. -/
theorem high_surrogate_twice_refused :
    let high := "\\ud83d".toList
    let pieces := [high, high, "\\uDE00".toList]
    (∀ p ∈ pieces, Piece p) ∧ ¬ SurrogatesPaired pieces ∧ unescape? pieces.flatten = none := by
  intro high pieces
  have hhigh : Hex4 ['d', '8', '3', 'd'] 0xD83D :=
    .mk (i := 13) (j := 8) (k := 3) (m := 13) (.inl rfl) (.inl rfl) (.inl rfl) (.inl rfl)
  have hlow : Hex4 ['D', 'E', '0', '0'] 0xDE00 :=
    .mk (i := 13) (j := 14) (k := 0) (m := 0) (.inr rfl) (.inr rfl) (.inr rfl) (.inr rfl)
  have hpieces : ∀ p ∈ pieces, Piece p := by
    simp only [pieces, List.forall_mem_cons, List.not_mem_nil, false_implies, implies_true,
      and_true]
    exact ⟨.unit hhigh, .unit hhigh, .unit hlow⟩
  have hfirst : High high := ⟨0xD83D, ⟨_, hhigh, rfl⟩, by decide, by decide⟩
  have hodd : ¬ SurrogatesPaired pieces := by
    intro hpaired
    obtain ⟨q, others, he, hq⟩ := hpaired.low_of_high_cons hfirst
    obtain rfl : high = q := (List.cons.inj he).1
    exact hfirst.not_low hq
  exact ⟨hpieces, hodd, (escapes_decoded hpieces).2.1 hodd⟩

end TableLexer.Json
