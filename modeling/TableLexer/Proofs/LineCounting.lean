import TableLexer.Proofs.Engine.Marks
import TableLexer.Proofs.LineBreaks
import TableLexer.Proofs.StateMachines

/-!
# Places and lines

Every mark of an engine lies in the text, on a line that starts at or before it, and every line
before that one has cost at least one character. So the positions made from marks are consistent.

The line counters follow the scan position step by step, and go back with it. A token is counted by
the separators that the configured pattern finds in it, but they are looked for only in the match of
a pattern that spans lines, or in a match with a line feed or a carriage return; otherwise the
counters stay. If only separators and tokens contain line breaks, and no token ends in the middle of
a pair, the counters always agree with a count over the whole text before them.
-/
namespace TableLexer

namespace Pattern

theorem endsFrom_getLast? {p : Pattern} {text : List Char} {last : Nat} (room i : Nat)
    (h : (p.endsFrom text room i).getLast? = some last) :
    i + (p.endsFrom text room i).length ≤ last ∧ last ≤ text.length := by
  induction room generalizing i with
  | zero => simp [endsFrom] at h
  | succ room ih =>
    unfold endsFrom at h ⊢
    cases hc : p.consumedAt? text i with
    | none =>
      simp only [hc] at h ⊢
      have hih := ih (i + 1) h
      omega
    | some n =>
      have hn := consumedAt?_within hc
      simp only [hc, List.getLast?_cons, Option.some.injEq, List.length_cons] at h ⊢
      cases hl : (p.endsFrom text room (i + n)).getLast? with
      | none =>
        have hnil : p.endsFrom text room (i + n) = [] := List.getLast?_eq_none_iff.mp hl
        simp only [hl, Option.getD_none] at h
        simp only [hnil, List.length_nil]
        omega
      | some l =>
        obtain rfl : l = last := by simpa [hl] using h
        have hih := ih (i + n) hl
        omega

theorem endsFrom_within {p : Pattern} {text : List Char} {last : Nat} (room i : Nat)
    (h : last ∈ p.endsFrom text room i) : last ≤ text.length := by
  induction room generalizing i with
  | zero => cases h
  | succ room ih =>
    unfold endsFrom at h
    cases hc : p.consumedAt? text i with
    | none =>
      rw [hc] at h
      exact ih _ h
    | some n =>
      rw [hc] at h
      rcases List.mem_cons.mp h with rfl | h
      · exact (consumedAt?_within hc).2
      · exact ih _ h

theorem matchEnds_within {p : Pattern} {text : List Char} {last : Nat}
    (h : last ∈ p.matchEnds text) : last ≤ text.length := endsFrom_within _ _ h

theorem matchEnds_getLast? {p : Pattern} {text : List Char} {last : Nat}
    (h : (p.matchEnds text).getLast? = some last) :
    (p.matchEnds text).length ≤ last ∧ last ≤ text.length := by
  have hends := endsFrom_getLast? text.length 0 h
  rwa [Nat.zero_add] at hends

end Pattern

namespace Mark

/-- The mark lies in the text, not before the start of its line, and each line before that
start has cost a character. -/
structure Fits (text : List Char) (m : Mark) : Prop where
  within : m.pos ≤ text.length
  ordered : m.lineStart ≤ m.pos
  counted : 1 ≤ m.line
  paid : m.line ≤ m.lineStart + 1

variable {config : EngineConfig} {text : List Char} {ends : Nat → Prop} {m m' : Mark}

theorem origin_fits (text : List Char) : origin.Fits text :=
  ⟨Nat.zero_le _, Nat.le_refl _, Nat.le_refl _, Nat.le_refl _⟩

theorem Fits.turned (h : m.Fits text) (lineState : LineState) : Fits text { m with lineState } :=
  ⟨h.within, h.ordered, h.counted, h.paid⟩

theorem Fits.advanced (h : m.Fits text) {n : Nat} (hn : m.pos + n ≤ text.length) :
    Fits text { m with pos := m.pos + n } :=
  ⟨hn, Nat.le_trans h.ordered (Nat.le_add_right _ _), h.counted, h.paid⟩

theorem Fits.passed (h : m.Fits text) {n : Nat} (hn : m.pos + n ≤ text.length)
    (eol : Pattern) (counted : Bool) : (m.passed eol text n counted).Fits text := by
  have hplain := h.advanced hn
  obtain ⟨hwithin, hordered, hcounted, hpaid⟩ := h
  cases counted with
  | false => exact hplain
  | true =>
    simp only [Mark.passed, ↓reduceIte]
    cases hl : (eol.matchEnds (Text.slice text m.pos (m.pos + n))).getLast? with
    | none =>
      rw [List.getLast?_eq_none_iff.mp hl]
      exact hplain
    | some last =>
      obtain ⟨hpay, hin⟩ := Pattern.matchEnds_getLast? hl
      rw [Text.length_slice_add hn] at hin
      constructor <;> dsimp only <;> omega

theorem Fits.moved (h : m.Fits text) (hmove : Moves config text ends m m') : m'.Fits text := by
  cases hmove with
  | turn => exact h.turned _
  | separator hs =>
    obtain ⟨hpos, hin⟩ := Pattern.consumedAt?_within hs
    obtain ⟨hwithin, hordered, hcounted, hpaid⟩ := h
    constructor <;> dsimp only <;> omega
  | noise hn => exact h.passed (Pattern.consumedAt?_within hn).2 _ _
  | indentation _ hn => exact h.passed (Pattern.consumedAt?_within hn).2 _ _
  | char _ hi => exact h.passed hi _ _
  | token hm => exact h.passed (Pattern.matchAt?_within hm) _ _

theorem Fits.consistent (h : m.Fits text) : m.position.Consistent := by
  obtain ⟨-, hordered, hcounted, hpaid⟩ := h
  refine ⟨hcounted, ?_⟩
  simp only [position]
  omega

def Firm (config : EngineConfig) (text : List Char) (m : Mark) : Prop :=
  m.Backed config text ∧ m.Fits text

theorem origin_firm (config : EngineConfig) (text : List Char) : origin.Firm config text :=
  ⟨origin_backed config text, origin_fits text⟩

theorem firm_stable (h : config.Apart) (text : List Char) (ends : Nat → Prop) :
    Stable config text ends (Firm config text) :=
  (backed_stable h text ends).and Fits.moved

end Mark

theorem Position.make_of_consistent {p : Position} (h : p.Consistent) :
    Position.make p.offset p.line p.column = .ok p := if_pos h

/-- Every mark fits the text, whatever the command was. -/
theorem Engine.next_firm {e : Engine} (ha : e.config.Apart)
    (h : e.Holds (Mark.Firm e.config e.input)) (c : Command) :
    (e.next c).Holds (Mark.Firm (e.next c).config (e.next c).input) := by
  rw [next_config]
  exact next_holds (fun text => Mark.firm_stable ha text _) (Mark.origin_firm e.config) h c
    (tokenEnds_anywhere e c)


def EngineConfig.BreaksLines (config : EngineConfig) : Prop :=
  ∀ text, config.eol.matchEnds text ≠ [] → Text.hasLineBreak text = true

theorem EngineConfig.lineSeparator_breaksLines {config : EngineConfig}
    (h : config.eol = LayoutPattern.lineSeparator) : config.BreaksLines := by
  intro text hends
  cases hbreak : Text.hasLineBreak text with
  | true => rfl
  | false => exact absurd (h ▸ LayoutPattern.matchEnds_plain hbreak) hends

namespace Mark

/-- The mark `m'` is as many lines further on than `m` as separators end in the text that starts at
`m`, and its line starts where the last of them ends. -/
def LinesPassed (eol : Pattern) (text : List Char) (m m' : Mark) : Prop :=
  m'.line = m.line + (eol.matchEnds text).length ∧
    m'.lineStart = match (eol.matchEnds text).getLast? with
      | some last => m.pos + last
      | none => m.lineStart

/-- Where separators are not counted, the lines are right only if there is none. -/
theorem passed_lines_iff (eol : Pattern) (text : List Char) (n : Nat) (counted : Bool) (m : Mark) :
    m.LinesPassed eol (Text.slice text m.pos (m.pos + n)) (m.passed eol text n counted) ↔
      counted = true ∨ eol.matchEnds (Text.slice text m.pos (m.pos + n)) = [] := by
  cases counted with
  | true => exact ⟨fun _ => .inl rfl, fun _ => ⟨rfl, rfl⟩⟩
  | false =>
    rw [or_iff_right Bool.false_ne_true]
    constructor
    · rintro ⟨hline, -⟩
      have hline : m.line = m.line + _ := hline
      exact List.length_eq_zero_iff.mp (by omega)
    · intro hnone
      simp [LinesPassed, passed, hnone]

end Mark

namespace Engine

/-- A token moves the line counters by exactly its separators if and only if its pattern spans
lines, its text has a line feed or a carriage return, or there is no separator in it; otherwise
the counters stay where they were before the match. So every token is counted exactly if all
separators have one of these characters, as the default ones do. -/
theorem token_lines_exact_iff {p : Pattern} {e e' : Engine}
    (h : scan p e = .ok (some .token) e') :
    ∃ e₁ n, scanLayout e = .ok none e₁ ∧ p.matchAt? e₁.input e₁.pos = some n ∧
      (e₁.toMark.LinesPassed e₁.config.eol (e₁.upcoming n) e'.toMark ↔
        p.spansLines = true ∨ Text.hasLineBreak (e₁.upcoming n) = true ∨
          e₁.config.eol.matchEnds (e₁.upcoming n) = []) ∧
      (¬ e₁.toMark.LinesPassed e₁.config.eol (e₁.upcoming n) e'.toMark →
        e'.line = e₁.line ∧ e'.lineStart = e₁.lineStart) ∧
      (e₁.config.BreaksLines →
        e₁.toMark.LinesPassed e₁.config.eol (e₁.upcoming n) e'.toMark) := by
  obtain ⟨hs, hscan⟩ := scan_cases h
  cases hscan with
  | layout hl => cases hl
  | @token e₁ n hl hm _ =>
    have hmark := tokenTaken_mark p n e₁
    have hcount := Mark.passed_lines_iff e₁.config.eol e₁.input n
      (p.spansLines || Text.hasLineBreak (e₁.upcoming n)) e₁.toMark
    have hiff := hcount
    rw [Bool.or_eq_true, or_assoc] at hiff
    refine ⟨e₁, n, scanLayout_eq_ok_iff.mpr ⟨hs, hl⟩, hm, ?_⟩
    rw [hmark]
    refine ⟨hiff, fun hnot => ?_, fun hbreaks => hiff.mpr ?_⟩
    · cases hcounted : p.spansLines || Text.hasLineBreak (e₁.upcoming n) with
      | true => exact absurd (hcount.mpr (.inl hcounted)) hnot
      | false => exact ⟨rfl, rfl⟩
    · by_cases hnone : e₁.config.eol.matchEnds (e₁.upcoming n) = []
      · exact .inr (.inr hnone)
      · exact .inr (.inl (hbreaks _ hnone))

/-- Where lines end with semicolons, the one in a literal is not counted. -/
theorem semicolon_in_literal_not_counted :
    let e := (new { eol := .char ';' }).restarted ['a', ';', 'b']
    let p : Pattern := .literal "a;b"
    let e' := e.next (.scan p)
    scan p e = .ok (some .token) e' ∧ scanLayout e = .ok none e ∧
      e.config.eol.matchEnds ['a', ';', 'b'] = [2] ∧
      (e.line = 1 ∧ e'.line = 1 ∧ e.lineStart = 0 ∧ e'.lineStart = 0) ∧
      ¬ e.toMark.LinesPassed e.config.eol ['a', ';', 'b'] e'.toMark := by
  intro e p e'
  have hscan : scan p e = .ok (some .token) e' := rfl
  have hlayout : scanLayout e = .ok none e := rfl
  obtain ⟨e₁, n, hsame, hmatch, hiff, -⟩ := token_lines_exact_iff hscan
  obtain rfl : e = e₁ := by
    rw [hlayout, EStateM.Result.ok.injEq] at hsame
    exact hsame.2
  obtain rfl : 3 = n := by
    have hthree : p.matchAt? e.input e.pos = some 3 := by decide
    exact Option.some.inj (hthree.symm.trans hmatch)
  exact ⟨hscan, hlayout, by decide, by decide, mt hiff.mp (by decide)⟩

end Engine

structure EngineConfig.Plain (config : EngineConfig) : Prop where
  eol : config.eol = LayoutPattern.lineSeparator
  noise : config.noise.Plain
  indentation : ∀ p, config.indentation = some p → p.Plain

namespace Mark

open LayoutPattern (lineSeparator)

/-- The counters are those of the separators in the text before the mark, and the mark does not
go through a pair. -/
structure Exact (text : List Char) (m : Mark) : Prop where
  within : m.pos ≤ text.length
  whole : ¬ Text.InsidePair text m.pos
  line : m.line = 1 + (lineSeparator.matchEnds (text.take m.pos)).length
  lineStart : m.lineStart = (lineSeparator.matchEnds (text.take m.pos)).getLast?.getD 0

variable {config : EngineConfig} {text : List Char} {m m' : Mark}

theorem origin_exact (text : List Char) : origin.Exact text := by
  refine ⟨Nat.zero_le _, ?_, rfl, rfl⟩
  rintro ⟨h, -⟩
  exact Nat.lt_irrefl 0 h

theorem Exact.turn (h : m.Exact text) (s : LineState) :
    Exact text { m with lineState := s } := ⟨h.within, h.whole, h.line, h.lineStart⟩

/-- A move over text in which all breaks are counted, and which does not stop in a pair. -/
theorem Exact.passed (h : m.Exact text) {n : Nat} (hn : m.pos + n ≤ text.length)
    (hw : ¬ Text.InsidePair text (m.pos + n)) (counted : Bool)
    (hc : counted = false → Text.hasLineBreak (Text.slice text m.pos (m.pos + n)) = false) :
    (m.passed lineSeparator text n counted).Exact text := by
  have hends : (if counted then lineSeparator.matchEnds (Text.slice text m.pos (m.pos + n))
      else []) = lineSeparator.matchEnds (Text.slice text m.pos (m.pos + n)) := by
    cases counted with
    | true => rfl
    | false => exact (LayoutPattern.matchEnds_plain (hc rfl)).symm
  have htake := LayoutPattern.matchEnds_take h.within h.whole n
  simp only [Mark.passed, hends]
  refine ⟨hn, hw, ?_, ?_⟩
  · simp only [htake, List.length_append, List.length_map, h.line]
    omega
  · simp only [htake, List.getLast?_append, List.getLast?_map, h.lineStart]
    cases (lineSeparator.matchEnds (Text.slice text m.pos (m.pos + n))).getLast? with
    | none => simp
    | some last => simp

theorem Exact.moved (hp : config.Plain) (h : m.Exact text)
    (hmove : Moves config text (fun i => ¬ Text.InsidePair text i) m m') : m'.Exact text := by
  have heol := hp.eol
  cases hmove with
  | turn s => exact h.turn s
  | @separator n hs =>
    rw [heol] at hs
    have hpass := h.passed (Pattern.consumedAt?_within hs).2
      (LayoutPattern.not_insidePair_separator hs) true (by simp)
    simpa [Mark.passed, LayoutPattern.matchEnds_separator hs] using hpass.turn .atLineStart
  | noise hn =>
    rw [heol]
    obtain ⟨hpos, hin⟩ := Pattern.consumedAt?_within hn
    exact h.passed hin (Text.not_insidePair_of_slice hpos (hp.noise _ _ _ hn)) _ id
  | indentation hi hn =>
    rw [heol]
    obtain ⟨hpos, hin⟩ := Pattern.consumedAt?_within hn
    have hplain := hp.indentation _ hi _ _ _ hn
    exact h.passed hin (Text.not_insidePair_of_slice hpos hplain) _ fun _ => hplain
  | char hs hi =>
    rw [heol] at hs ⊢
    have hplain := LayoutPattern.plain_of_no_separator hs
    exact h.passed hi (Text.not_insidePair_of_slice Nat.one_pos hplain) _ fun _ => hplain
  | token hm _ _ he =>
    rw [heol]
    refine h.passed (Pattern.matchAt?_within hm) he _ fun hcount => ?_
    exact (Bool.or_eq_false_iff.mp hcount).2

end Mark

namespace Engine

/-- From new input on, the counters of the scan position, of the lexeme and of every snapshot
are exact after any commands, as long as no token ends in the middle of a pair. -/
theorem after_exact {e₀ e : Engine} {text : List Char} {commands : List Command}
    (hp : e₀.config.Plain) (hs : setInput text e₀ = .ok () e)
    (ht : e.TokensEnd (fun text i => ¬ Text.InsidePair text i) commands) :
    (e.after commands).Holds (Mark.Exact (e.after commands).input) := by
  obtain rfl := eq_restarted_of_setInput hs
  have horigin : ∀ text, Mark.origin.Backed e₀.config text ∧ Mark.origin.Exact text :=
    fun text => ⟨Mark.origin_backed e₀.config text, Mark.origin_exact text⟩
  have hstart : (e₀.restarted text).Holds fun m => m.Backed e₀.config text ∧ m.Exact text :=
    ⟨horigin text, horigin text, by simp [restarted]⟩
  have hapart := EngineConfig.apart_of_plain hp.eol hp.noise
  have hall := after_holds (e := e₀.restarted text)
    (P := fun text m => m.Backed e₀.config text ∧ m.Exact text)
    (fun text => (Mark.backed_stable hapart text _).and (Mark.Exact.moved hp)) horigin hstart ht
  exact hall.imp fun _ hm => hm.2

/-- A token across two breaks, one of them a pair, put back and scanned in parts. -/
theorem token_across_breaks_exact :
    let config : EngineConfig := { noise := .char ' ', indentation := none }
    let e := (new config).restarted ['a', '\r', '\n', 'b', '\r', ' ', 'c']
    let e' := e.after [.scan (.literal "a\r\nb\r"), .undoScan, .scan (.char 'a'), .addSnapshot,
      .nextChar, .scan (.literal "b\r"), .scan (.char 'c')]
    (e'.line = 3 ∧ e'.lineStart = 5 ∧ e'.pos = 7) ∧ e'.Holds (Mark.Exact e'.input) := by
  intro config e e'
  have hplain : (new config).config.Plain := ⟨rfl, Pattern.char_plain rfl, fun _ h => nomatch h⟩
  have hset : setInput ['a', '\r', '\n', 'b', '\r', ' ', 'c'] (new config) = .ok () e := rfl
  exact ⟨by decide, after_exact hplain hset (by decide)⟩

end Engine
end TableLexer
