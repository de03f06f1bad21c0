import TableLexer.Noise
import TableLexer.Proofs.Matching
import TableLexer.Proofs.Repetition

/-!
# Line breaks

The default line separator finds the line breaks of a text: a carriage return with the line feed
after it, or either of them alone. The breaks of a text are those of its parts, unless the cut
goes through a pair.
-/
namespace TableLexer

namespace Text

def isBreak (c : Char) : Bool := c == '\n' || c == '\r'

/-- The places where the line breaks of a text end that starts at the place `i`. -/
def breakEnds (i : Nat) : List Char → List Nat
  | [] => []
  | '\r' :: '\n' :: rest => (i + 2) :: breakEnds (i + 2) rest
  | c :: rest => if isBreak c then (i + 1) :: breakEnds (i + 1) rest else breakEnds (i + 1) rest

/-- The place lies between a carriage return and the line feed that belongs to it. -/
def InsidePair (text : List Char) (i : Nat) : Prop :=
  0 < i ∧ text[i - 1]? = some '\r' ∧ text[i]? = some '\n'

instance (text : List Char) (i : Nat) : Decidable (InsidePair text i) :=
  inferInstanceAs (Decidable (_ ∧ _ ∧ _))

theorem breakEnds_cons {c : Char} {rest : List Char} (i : Nat)
    (h : ¬ (c = '\r' ∧ rest.head? = some '\n')) :
    breakEnds i (c :: rest) =
      if isBreak c then (i + 1) :: breakEnds (i + 1) rest else breakEnds (i + 1) rest := by
  rw [breakEnds]
  rintro tail rfl rfl
  exact h ⟨rfl, rfl⟩

theorem breakEnds_eq_nil {text : List Char} (i : Nat) (h : hasLineBreak text = false) :
    breakEnds i text = [] := by
  induction text generalizing i with
  | nil => rfl
  | cons c rest ih =>
    rw [hasLineBreak, List.any_cons, Bool.or_eq_false_iff] at h
    have hc : isBreak c = false := h.1
    rw [breakEnds_cons, if_neg (by simp [hc])]
    · exact ih (i + 1) h.2
    · rintro ⟨rfl, -⟩
      exact absurd hc (by decide)

/-- The breaks of a text whose parts were not cut through a pair. -/
theorem breakEnds_append (i : Nat) {a b : List Char}
    (h : ¬ (a.getLast? = some '\r' ∧ b.head? = some '\n')) :
    breakEnds i (a ++ b) = breakEnds i a ++ breakEnds (i + a.length) b := by
  fun_induction breakEnds i a with
  | case1 i => rfl
  | case2 i rest ih =>
    have hrest : ¬ (rest.getLast? = some '\r' ∧ b.head? = some '\n') := by
      rintro ⟨hl, hb⟩
      exact h ⟨by simp [List.getLast?_cons, hl], hb⟩
    rw [List.cons_append, List.cons_append, breakEnds, ih hrest, List.cons_append]
    simp only [List.length_cons]
    rw [show i + 2 + rest.length = i + (rest.length + 1 + 1) by omega]
  | case3 i c rest hpair hc ih | case4 i c rest hpair hc ih =>
    have hrest : ¬ (rest.getLast? = some '\r' ∧ b.head? = some '\n') := by
      rintro ⟨hl, hb⟩
      exact h ⟨by simp [List.getLast?_cons, hl], hb⟩
    have hcut : ¬ (c = '\r' ∧ (rest ++ b).head? = some '\n') := by
      rintro ⟨rfl, hn⟩
      cases rest with
      | nil => exact h ⟨rfl, hn⟩
      | cons d rest =>
        simp only [List.cons_append, List.head?_cons, Option.some.injEq] at hn
        subst hn
        exact hpair rest rfl rfl
    rw [List.cons_append, breakEnds_cons i hcut, ih hrest, List.length_cons,
      show i + 1 + rest.length = i + (rest.length + 1) by omega]
    simp [hc]

theorem breakEnds_shift (i j : Nat) (text : List Char) :
    breakEnds (i + j) text = (breakEnds j text).map (i + ·) := by
  fun_induction breakEnds j text with
  | case1 j => rfl
  | case2 j rest ih => simp [breakEnds, ← ih, Nat.add_assoc]
  | case3 j c rest hpair hc ih | case4 j c rest hpair hc ih =>
    rw [breakEnds_cons, Nat.add_assoc, ih]
    · simp [hc]
    · rintro ⟨rfl, hn⟩
      obtain ⟨tail, rfl⟩ := List.head?_eq_some_iff.mp hn
      exact hpair tail rfl rfl

theorem slice_add (text : List Char) (i n : Nat) :
    slice text i (i + n) = (text.drop i).take n := by
  rw [slice, List.drop_take, Nat.add_sub_cancel_left]

theorem take_add_slice (text : List Char) (i n : Nat) :
    text.take (i + n) = text.take i ++ slice text i (i + n) := by
  rw [slice_add, List.take_add]

theorem length_slice_add {text : List Char} {i n : Nat} (h : i + n ≤ text.length) :
    (slice text i (i + n)).length = n := by
  rw [slice_add, List.length_take, List.length_drop]
  omega

theorem not_pair_at_cut {text : List Char} {i : Nat} (hi : i ≤ text.length)
    (h : ¬ InsidePair text i) (n : Nat) :
    ¬ ((text.take i).getLast? = some '\r' ∧ (slice text i (i + n)).head? = some '\n') := by
  rintro ⟨hl, hn⟩
  apply h
  cases i with
  | zero => simp at hl
  | succ i =>
    refine ⟨Nat.succ_pos i, ?_, ?_⟩
    · rw [List.getLast?_eq_getElem?, List.length_take_of_le hi] at hl
      rwa [List.getElem?_take_of_lt (by omega)] at hl
    · rw [slice_add, List.head?_take] at hn
      split at hn
      · cases hn
      · rwa [List.head?_drop] at hn

theorem not_insidePair_of_slice {text : List Char} {i n : Nat} (hn : 0 < n)
    (h : hasLineBreak (slice text i (i + n)) = false) : ¬ InsidePair text (i + n) := by
  rintro ⟨-, hr, -⟩
  have hmem : '\r' ∈ slice text i (i + n) := by
    rw [slice_add, List.mem_iff_getElem?]
    refine ⟨n - 1, ?_⟩
    rw [List.getElem?_take_of_lt (by omega), List.getElem?_drop]
    rwa [show i + (n - 1) = i + n - 1 by omega]
  rw [hasLineBreak, List.any_eq_false] at h
  exact h '\r' hmem (by decide)

end Text

namespace LayoutPattern

open Text (isBreak breakEnds InsidePair slice hasLineBreak)

inductive Leads : List Char → Option Nat → Prop where
  | nothing : Leads [] none
  | pair {rest : List Char} : Leads ('\r' :: '\n' :: rest) (some 2)
  | single {c : Char} {rest : List Char} (hc : isBreak c = true)
      (h : ¬ (c = '\r' ∧ rest.head? = some '\n')) : Leads (c :: rest) (some 1)
  | plain {c : Char} {rest : List Char} (hc : isBreak c = false) : Leads (c :: rest) none

theorem lineSeparator_leads (text : List Char) (i : Nat) :
    Leads (text.drop i) (lineSeparator.consumedAt? text i) := by
  by_cases hi : text.length < i
  · have hd : text.drop i = [] := List.drop_eq_nil_of_le (by omega)
    simpa [Pattern.consumedAt?, Pattern.matchAt?, hi, hd] using Leads.nothing
  simp only [Pattern.consumedAt?, Pattern.matchAt?, hi, ↓reduceIte, lineSeparator,
    Regex.matchAt?, char, Regex.run, Regex.Cursor.ofText]
  cases text.drop i with
  | nil => simpa using Leads.nothing
  | cons c rest =>
    by_cases hr : c = '\r'
    · subst hr
      cases rest with
      | nil => simpa [Regex.Cursor.advance, Option.filter] using Leads.single (by decide) (by simp)
      | cons d rest =>
        by_cases hn : d = '\n'
        · subst hn
          simpa [Regex.Cursor.advance, Nat.add_assoc, Option.filter] using Leads.pair
        · simpa [Regex.Cursor.advance, Option.filter, hn] using
            Leads.single (by decide) (by simp [hn])
    · by_cases hn : c = '\n'
      · simpa [Regex.Cursor.advance, Option.filter, hn] using
          Leads.single (by decide) (by simp)
      · simpa [hr, hn] using Leads.plain (by simp [isBreak, hr, hn])

/-- The search for separators finds the line breaks, one after the other. -/
theorem breakEnds_drop (text : List Char) (i : Nat) :
    breakEnds i (text.drop i) = match lineSeparator.consumedAt? text i with
      | some n => (i + n) :: breakEnds (i + n) (text.drop (i + n))
      | none => breakEnds (i + 1) (text.drop (i + 1)) := by
  have h := lineSeparator_leads text i
  have hdrop : ∀ n, text.drop (i + n) = (text.drop i).drop n := fun n => by
    rw [List.drop_drop]
  simp only [hdrop]
  generalize text.drop i = ahead, lineSeparator.consumedAt? text i = found at h
  cases h with
  | nothing | pair => simp [breakEnds]
  | single hc hp => simp [Text.breakEnds_cons i hp, hc]
  | plain hc =>
    rw [Text.breakEnds_cons]
    · simp [hc]
    · rintro ⟨rfl, -⟩
      exact absurd hc (by decide)

theorem endsFrom_lineSeparator {text : List Char} (room i : Nat)
    (h : text.length ≤ i + room) :
    lineSeparator.endsFrom text room i = breakEnds i (text.drop i) := by
  induction room generalizing i with
  | zero => rw [List.drop_eq_nil_of_le (by simpa using h), Pattern.endsFrom, breakEnds]
  | succ room ih =>
    rw [breakEnds_drop, Pattern.endsFrom]
    cases hn : lineSeparator.consumedAt? text i with
    | some n =>
      have := (Pattern.consumedAt?_within hn).1
      simp only [ih (i + n) (by omega)]
    | none => exact ih (i + 1) (by omega)

theorem matchEnds_lineSeparator (text : List Char) :
    lineSeparator.matchEnds text = breakEnds 0 text :=
  endsFrom_lineSeparator text.length 0 (by omega)

theorem matchEnds_plain {text : List Char} (h : hasLineBreak text = false) :
    lineSeparator.matchEnds text = [] := by
  rw [matchEnds_lineSeparator, Text.breakEnds_eq_nil 0 h]

/-- The separators of a longer prefix are those of the prefix and those of the rest, unless the
cut goes through a pair. -/
theorem matchEnds_take {text : List Char} {i : Nat} (hi : i ≤ text.length)
    (h : ¬ InsidePair text i) (n : Nat) :
    lineSeparator.matchEnds (text.take (i + n)) =
      lineSeparator.matchEnds (text.take i) ++
        (lineSeparator.matchEnds (slice text i (i + n))).map (i + ·) := by
  simp only [matchEnds_lineSeparator]
  rw [Text.take_add_slice, Text.breakEnds_append 0 (Text.not_pair_at_cut hi h n),
    ← Text.breakEnds_shift, List.length_take_of_le hi, Nat.zero_add, Nat.add_zero]

theorem matchEnds_separator {text : List Char} {i n : Nat}
    (h : lineSeparator.consumedAt? text i = some n) :
    lineSeparator.matchEnds (slice text i (i + n)) = [n] := by
  have hl := lineSeparator_leads text i
  rw [matchEnds_lineSeparator, Text.slice_add]
  rw [h] at hl
  generalize text.drop i = ahead at hl
  cases hl with
  | pair => simp [breakEnds]
  | single hc => simp [Text.breakEnds_cons, hc, breakEnds]

/-- A separator is taken whole. -/
theorem not_insidePair_separator {text : List Char} {i n : Nat}
    (h : lineSeparator.consumedAt? text i = some n) : ¬ InsidePair text (i + n) := by
  rintro ⟨-, hr, hn⟩
  have hl := lineSeparator_leads text i
  have hpos := (Pattern.consumedAt?_within h).1
  rw [show i + n - 1 = i + (n - 1) by omega, ← List.getElem?_drop] at hr
  rw [← List.getElem?_drop] at hn
  rw [h] at hl
  generalize text.drop i = ahead at hl hr hn
  cases hl with
  | pair => simp at hr
  | single hc hp =>
    exact hp ⟨by simpa using hr, by simpa [List.head?_eq_getElem?] using hn⟩

theorem plain_of_no_separator {text : List Char} {i : Nat}
    (h : lineSeparator.consumedAt? text i = none) :
    hasLineBreak (slice text i (i + 1)) = false := by
  have hl := lineSeparator_leads text i
  rw [Text.slice_add]
  rw [h] at hl
  generalize text.drop i = ahead at hl
  cases hl with
  | nothing => rfl
  | plain hc => simpa [hasLineBreak, isBreak] using hc

theorem separator_leads {text : List Char} {i : Nat}
    (h : (lineSeparator.consumedAt? text i).isSome) :
    ∃ c rest, text.drop i = c :: rest ∧ isBreak c = true := by
  have hl := lineSeparator_leads text i
  generalize text.drop i = ahead, lineSeparator.consumedAt? text i = found at hl h
  cases hl with
  | nothing | plain => simp at h
  | pair => exact ⟨_, _, rfl, rfl⟩
  | single hc => exact ⟨_, _, rfl, hc⟩

end LayoutPattern

def Pattern.Plain (p : Pattern) : Prop :=
  ∀ text i n, p.consumedAt? text i = some n →
    Text.hasLineBreak (Text.slice text i (i + n)) = false

theorem Pattern.char_plain {c : Char} (h : Text.isBreak c = false) : (Pattern.char c).Plain := by
  intro text i n hn
  have hm := (Pattern.consumedAt?_eq_some.mp hn).1
  simp only [Pattern.matchAt?] at hm
  split at hm
  · cases hm
  · simp only [Option.ite_none_right_eq_some, Option.some.injEq] at hm
    obtain ⟨hc, rfl⟩ := hm
    obtain ⟨rest, hd⟩ := List.head?_eq_some_iff.mp hc
    simpa [Text.slice_add, hd, Text.hasLineBreak, Text.isBreak] using h

def EngineConfig.Apart (config : EngineConfig) : Prop :=
  ∀ text i, (config.eol.consumedAt? text i).isSome → config.noise.consumedAt? text i = none

theorem EngineConfig.apart_of_plain {config : EngineConfig}
    (he : config.eol = LayoutPattern.lineSeparator) (h : config.noise.Plain) :
    config.Apart := by
  intro text i hs
  rw [he] at hs
  obtain ⟨c, rest, hd, hc⟩ := LayoutPattern.separator_leads hs
  cases hn : config.noise.consumedAt? text i with
  | none => rfl
  | some n =>
    have hplain := h text i n hn
    have hpos := (Pattern.consumedAt?_within hn).1
    obtain ⟨k, rfl⟩ : ∃ k, n = k + 1 := ⟨n - 1, by omega⟩
    rw [Text.slice_add, hd, List.take_succ_cons, Text.hasLineBreak, List.any_cons,
      Bool.or_eq_false_iff] at hplain
    have hno : Text.isBreak c = false := hplain.1
    simp [hno] at hc

theorem EngineConfig.default_apart : ({} : EngineConfig).Apart := by
  intro text i h
  obtain ⟨c, rest, hd, hc⟩ := LayoutPattern.separator_leads h
  have hset : ∀ s : Regex.CharSet, s.mem '\n' = false → s.mem '\r' = false →
      Regex.Refuses (β := Nat) (Regex.run (.set s)) (c :: rest) := by
    intro s hn hr
    apply Regex.refuses_set
    have hc : c = '\n' ∨ c = '\r' := by simpa [Text.isBreak] using hc
    rcases hc with rfl | rfl
    · exact hn
    · exact hr
  have hm : LayoutPattern.commentsAndBlanks.matchAt? text i = none := by
    unfold Pattern.matchAt? LayoutPattern.commentsAndBlanks
    split
    · rfl
    · apply Regex.Refuses.matchAt?
      rw [hd]
      refine Regex.refuses_plus (Regex.refuses_alt ?_ (Regex.refuses_alt ?_ ?_))
      · exact Regex.refuses_seq (hset _ rfl rfl)
      · exact Regex.refuses_seq (hset _ rfl rfl)
      · exact hset _ rfl rfl
  simp [Pattern.consumedAt?, hm]

end TableLexer
