import TableLexer.Proofs.Engine.Operations

/-!
# Scanning from a place on

A rule is applied at a place with neither a separator nor the end of the text. From there the
engine may come back to that place, but never behind it, and each state in which it could be
left is tied to what has been consumed: a token in progress, a token given up and the end of a
line all lie beyond the place.
-/
namespace TableLexer.Engine

/-- Between tokens there is no lexeme but a separator shown at the end of a line. -/
def Idle (e : Engine) : Prop := e.recognition = .ready → e.lexeme ≠ [] → e.lineState = .atLineEnd

theorem opened_pos {e : Engine} (h : e.recognition = .ready ∨ e.recognition = .recognized) :
    e.opened.pos = e.pos + if e.lineState = .atLineEnd then e.separator?.getD 0 else 0 := by
  have hr : e.released.recognition = .ready := by
    rcases h with h | h <;> simp [released, h]
  have hs : e.released.separator? = e.separator? := by simp [separator?]
  unfold opened lineBegun
  by_cases hl : e.lineState = .atLineEnd
  · simp [hl, hr, beginLine, separator?]
  · simp [hl]

theorem opened_ready {e : Engine} (h : e.recognition = .ready ∨ e.recognition = .recognized) :
    e.opened.recognition = .ready := by
  rcases h with h | h <;> simp [opened, released, h]

theorem opened_lineState {e : Engine} (h : e.opened.recognition = .ready) :
    e.opened.lineState ≠ .atLineEnd := by
  have hr : e.released.recognition = .ready := by simpa [opened] using h
  unfold opened lineBegun
  split
  · simp [beginLine]
  · next hl =>
    intro hm
    exact hl ⟨hm, hr⟩

theorem opened_of_tokenizing {e : Engine} (h : e.opened.recognition = .tokenizing) :
    e.opened = e := by
  have hr : e.released.recognition = .tokenizing := by simpa [opened] using h
  have hne : e.recognition ≠ .recognized := by
    intro hm
    simp [released, hm] at hr
  have heq : e.released = e := by simp [released, hne]
  rw [heq] at hr
  simp [opened, lineBegun, hr, heq]

theorem Idle.opened_lexeme {e : Engine} (h : e.Idle) (hr : e.opened.recognition = .ready) :
    e.opened.lexeme = [] := by
  have hr : e.released.recognition = .ready := by simpa [opened] using hr
  by_cases hx : e.released.lexeme = []
  · unfold opened lineBegun
    split
    · rfl
    · exact hx
  · have hne : e.recognition ≠ .recognized := by
      intro hm
      simp [released, hm] at hx
    have he : e.released = e := by simp [released, hne]
    rw [he] at hr hx
    simp [opened, he, lineBegun, h hr hx, hr, beginLine]

structure Advancing (start : Nat) (e : Engine) : Prop where
  plain : e.config.eol.consumedAt? e.input start = none
  forward : start ≤ e.pos
  input_given : e.recognition ≠ .waitingForInput
  line_end : e.lineState = .atLineEnd → start < e.pos
  in_progress : e.recognition = .tokenizing ∨ e.recognition = .failed → start < e.pos
  complete : e.recognition = .recognized → e.lexeme ≠ [] → start < e.pos
  idle : e.Idle
  anchored : e.lexeme ≠ [] →
    start ≤ e.anchor.pos ∧ (e.anchor.lineState = .atLineEnd → start < e.anchor.pos)

namespace Advancing

variable {start : Nat} {e e' : Engine}

theorem sameScan (h : Advancing start e) (hs : e'.toScan = e.toScan)
    (hc : e'.config = e.config) (hi : e'.input = e.input) : Advancing start e' := by
  obtain ⟨scan, config, input, snapshots⟩ := e'
  cases hs
  cases hc
  cases hi
  exact ⟨h.plain, h.forward, h.input_given, h.line_end, h.in_progress, h.complete, h.idle,
    h.anchored⟩

theorem beyond (h : Advancing start e) {n : Nat} (hs : e.separator? = some n) :
    start < e.pos := by
  have hne : start ≠ e.pos := by
    intro he
    have hp := h.plain
    rw [he] at hp
    rw [separator?, hp] at hs
    cases hs
  have hf := h.forward
  omega

theorem released (h : Advancing start e) : Advancing start e.released := by
  unfold Engine.released
  split
  · constructor
    · exact h.plain
    · exact h.forward
    · simp
    · exact h.line_end
    · simp
    · simp
    · simp [Idle]
    · simp
  · exact h

theorem lineBegun (h : Advancing start e) : Advancing start e.lineBegun := by
  unfold Engine.lineBegun
  split
  · next hl =>
    have hf := h.forward
    constructor
    · exact h.plain
    · simp only [beginLine]
      omega
    · exact h.input_given
    · simp [beginLine]
    · simp [beginLine, hl.2]
    · simp [beginLine]
    · simp [Idle, beginLine]
    · simp [beginLine]
  · exact h

theorem opened (h : Advancing start e) : Advancing start e.opened := h.released.lineBegun

theorem skipNoise (h : Advancing start e) : Advancing start e.skipNoise := by
  have hp := skipNoise_pos e
  have hf := h.forward
  have hle : e.pos ≤ e.skipNoise.pos := by omega
  obtain ⟨hc, hi, hr, hx, ha, hl⟩ := skipNoise_text e
  constructor
  · rw [hc, hi]
    exact h.plain
  · omega
  · rw [hr]
    exact h.input_given
  · rw [hl]
    intro k
    exact Nat.lt_of_lt_of_le (h.line_end k) hle
  · rw [hr]
    intro k
    exact Nat.lt_of_lt_of_le (h.in_progress k) hle
  · rw [hr, hx]
    intro k m
    exact Nat.lt_of_lt_of_le (h.complete k m) hle
  · unfold Idle
    rw [hr, hx, hl]
    exact h.idle
  · rw [hx, ha]
    exact h.anchored

theorem indented (h : Advancing start e) {n : Nat} (hi : e.indentation? = some n) :
    Advancing start (e.indented n) := by
  obtain ⟨hl, hn, -⟩ := indentation?_eq_some hi
  have hf := h.forward
  have hpos : (e.indented n).pos = e.pos + n := rfl
  constructor
  · exact h.plain
  · omega
  · simp [Engine.indented]
  · simp [Engine.indented]
  · simp [Engine.indented]
  · intro _ _
    omega
  · simp [Idle, Engine.indented]
  · intro _
    simp only [Engine.indented, takeChars, pushLexeme]
    split
    · refine ⟨hf, ?_⟩
      intro hm
      exact absurd (hl.symm.trans hm) (by decide)
    · next hx => exact h.anchored (by simpa [advance] using hx)

theorem ended (h : Advancing start e) : Advancing start e.ended := by
  have hr : e.ended.recognition = .done ∨ e.ended.recognition = .aborted := by
    unfold Engine.ended
    dsimp only
    split
    · exact .inr rfl
    · exact .inl rfl
  refine ⟨h.plain, h.forward, ?_, h.line_end, ?_, ?_, ?_, h.anchored⟩ <;>
    rcases hr with hr | hr <;> simp [Idle, hr]

theorem lineEnded (h : Advancing start e) {n : Nat} (hs : e.separator? = some n) :
    Advancing start (e.lineEnded n) := by
  have hb := h.beyond hs
  unfold Engine.lineEnded
  dsimp only
  split
  · next hready =>
    constructor
    · exact h.plain
    · exact h.forward
    · exact h.input_given
    · intro _
      exact hb
    · intro _
      exact hb
    · intro _ _
      exact hb
    · intro _ _
      rfl
    · intro _
      exact ⟨h.forward, fun _ => hb⟩
  · next hready =>
    constructor
    · exact h.plain
    · exact h.forward
    · exact h.input_given
    · intro _
      exact hb
    · exact h.in_progress
    · exact h.complete
    · intro k
      exact absurd k hready
    · exact h.anchored

theorem laidOut (h : Advancing start e) {o : Option Outcome} (hl : LaidOut e o e') :
    Advancing start e' := by
  cases hl with
  | indentation hi => exact h.opened.indented hi
  | endOfStream => exact h.opened.skipNoise.ended
  | lineEnd _ _ hp => exact h.opened.skipNoise.lineEnded hp
  | body => exact h.opened.skipNoise

/-- A match of no characters completes nothing that was not consumed before. -/
theorem tokenTaken (h : Advancing start e) (hu : e.Unclaimed) (hl : e.lineState ≠ .atLineEnd)
    (p : Pattern) (n : Nat) : Advancing start (e.tokenTaken p n) := by
  obtain ⟨hc, hi, -, hp, -, hx, ha⟩ := takeMatch_text p n e
  have hf := h.forward
  have hpos : (e.tokenTaken p n).pos = e.pos + n := hp
  have hlex : (e.tokenTaken p n).lexeme = e.lexeme ++ e.upcoming n := hx
  constructor
  · rw [show (e.tokenTaken p n).config = e.config from hc,
      show (e.tokenTaken p n).input = e.input from hi]
    exact h.plain
  · omega
  · simp [Engine.tokenTaken]
  · simp [Engine.tokenTaken]
  · simp [Engine.tokenTaken]
  · intro _ hne
    by_cases hn : n = 0
    · have hold : e.lexeme ≠ [] := by
        rw [hlex, hn] at hne
        simpa [upcoming, Text.slice] using hne
      rcases hu with hr | hr
      · exact absurd (h.idle hr hold) hl
      · have := h.in_progress (.inl hr)
        omega
    · omega
  · simp [Idle, Engine.tokenTaken]
  · intro _
    rw [show (e.tokenTaken p n).anchor = _ from ha]
    split
    · refine ⟨hf, ?_⟩
      intro hm
      exact absurd hm hl
    · next hx => exact h.anchored (by simpa using hx)

theorem scanned (h : Advancing start e) (hs : e.Scannable) {p : Pattern} {o : Option Outcome}
    (hp : Scanned p e o e') : Advancing start e' := by
  cases hp with
  | layout hl => exact h.laidOut hl
  | miss hl => exact h.laidOut hl
  | token hl _ hne => exact (h.laidOut hl).tokenTaken (hl.unclaimed hs) hne p _

theorem charRead (h : Advancing start e) {c : Option Char} (hc : CharRead e c e') :
    Advancing start e' := by
  cases hc with
  | endOfStream => exact h.released.ended
  | @separator c n hc hs =>
    have hs : e.released.separator? = some n := by simpa [separator?] using hs
    have hr := h.released
    generalize e.released = r at hs hr
    obtain ⟨hn, -⟩ := Pattern.consumedAt?_within hs
    have hpos : (r.separatorTaken n).pos = r.pos + n := rfl
    have hf := hr.forward
    constructor
    · exact hr.plain
    · omega
    · simp [separatorTaken]
    · simp [separatorTaken]
    · intro _
      omega
    · simp [separatorTaken]
    · simp [Idle, separatorTaken]
    · intro _
      simp only [separatorTaken]
      split
      · exact ⟨hf, hr.line_end⟩
      · next hx =>
        apply hr.anchored
        intro he
        apply hx
        simp [keptLexeme, he]
  | plain hc hs hl =>
    have hl : e.released.lineState ≠ .atLineEnd := by simpa using hl
    have hr := h.released
    generalize e.released = r at hl hr
    have hpos : r.charTaken.pos = r.pos + 1 := rfl
    have hf := hr.forward
    constructor
    · exact hr.plain
    · omega
    · simp [charTaken]
    · simp [charTaken]
    · intro _
      omega
    · simp [charTaken]
    · simp [Idle, charTaken]
    · intro _
      simp only [charTaken, takeChars, pushLexeme]
      split
      · refine ⟨hf, ?_⟩
        intro hm
        exact absurd hm hl
      · next hx => exact hr.anchored (by simpa [advance] using hx)

theorem clearLexeme (h : Advancing start e) : Advancing start e.clearLexeme := by
  constructor
  · exact h.plain
  · exact h.forward
  · exact h.input_given
  · exact h.line_end
  · exact h.in_progress
  · simp [Engine.clearLexeme]
  · simp [Idle, Engine.clearLexeme]
  · simp [Engine.clearLexeme]

theorem queued (h : Advancing start e) : Advancing start e.recognizedNow.clearLexeme := by
  unfold recognizedNow
  split
  · constructor
    · exact h.plain
    · exact h.forward
    · simp [Engine.clearLexeme]
    · exact h.line_end
    · simp [Engine.clearLexeme]
    · simp [Engine.clearLexeme]
    · simp [Idle, Engine.clearLexeme]
    · simp [Engine.clearLexeme]
  · exact h.clearLexeme

theorem failedNow (h : Advancing start e) (hx : e.recognition = .recognized → e.lexeme ≠ []) :
    Advancing start e.failedNow := by
  unfold Engine.failedNow
  split
  · next hr =>
    have hb : start < e.pos := by
      rcases hr with hr | hr
      · exact h.in_progress (.inl hr)
      · exact h.complete hr (hx hr)
    constructor
    · exact h.plain
    · exact h.forward
    · simp
    · exact h.line_end
    · intro _
      exact hb
    · simp
    · simp [Idle]
    · exact h.anchored
  · exact h

/-- Putting the lexeme back leads no further back than to its anchor. -/
theorem undone (h : Advancing start e) : Advancing start e.undone := by
  unfold Engine.undone
  split
  · exact h
  · next hx =>
    obtain ⟨hf, hl⟩ := h.anchored (by simpa using hx)
    unfold rested
    dsimp only
    split
    · constructor
      · exact h.plain
      · exact hf
      · simp
      · exact hl
      · simp
      · simp
      · simp [Idle]
      · simp
    · next hr =>
      simp only [not_or] at hr
      constructor
      · exact h.plain
      · exact hf
      · exact h.input_given
      · exact hl
      · intro k
        exact absurd k (not_or.mpr ⟨hr.1, hr.2.2⟩)
      · intro k
        exact absurd k hr.2.1
      · simp [Idle]
      · simp

end Advancing

/-- Between tokens, a layout step that reports nothing leads to a place to apply a rule at. -/
theorem LaidOut.advancing {e e' : Engine} (h : LaidOut e none e')
    (hr : e.recognition = .ready ∨ e.recognition = .recognized) (hi : e.Idle) :
    Advancing e'.pos e' := by
  cases h with
  | body _ _ hs =>
    have hready := opened_ready hr
    obtain ⟨-, -, -, hx, -, hl⟩ := skipNoise_text e.opened
    have hx : e.opened.skipNoise.lexeme = [] := hx.trans (hi.opened_lexeme hready)
    refine ⟨hs, Nat.le_refl _, ?_, ?_, ?_, ?_, ?_, ?_⟩
    · simp [hready]
    · intro he
      exact absurd (hl.symm.trans he) (opened_lineState hready)
    · simp [hready]
    · simp [hready]
    · intro _ hne
      exact absurd hx hne
    · intro hne
      exact absurd hx hne

end TableLexer.Engine
