import TableLexer.Engine.Scan
import TableLexer.Proofs.Matching
import TableLexer.Proofs.Programs

/-!
# What the engine does in one operation

Each operation of the engine is described once, by the engine it leads to. The layout step has
four ways to end, the reading of a character three; a scan adds the match of its pattern to a
layout step that reported nothing.
-/
namespace TableLexer.Engine

def Scannable (e : Engine) : Prop :=
  e.recognition = .ready ∨ e.recognition = .tokenizing ∨ e.recognition = .recognized

instance (e : Engine) : Decidable e.Scannable := inferInstanceAs (Decidable (_ ∨ _ ∨ _))

def Unclaimed (e : Engine) : Prop := e.recognition = .ready ∨ e.recognition = .tokenizing

instance (e : Engine) : Decidable e.Unclaimed := inferInstanceAs (Decidable (_ ∨ _))

theorem upcoming_eq {e : Engine} {text rest : List Char}
    (h : e.input.drop e.pos = text ++ rest) : e.upcoming text.length = text := by
  rw [upcoming, Text.slice, List.drop_take, h, Nat.add_sub_cancel_left, List.take_left]

def released (e : Engine) : Engine :=
  if e.recognition = .recognized then { e with recognition := .ready, lexeme := [] } else e

def lineBegun (e : Engine) : Engine :=
  if e.lineState = .atLineEnd ∧ e.recognition = .ready then
    { e with lineState := .atLineStart }.beginLine
  else e

def opened (e : Engine) : Engine := e.released.lineBegun

def indented (n : Nat) (e : Engine) : Engine :=
  { e.takeChars n with lineState := .afterIndentation, recognition := .recognized }

def ended (e : Engine) : Engine :=
  { e with recognition := if e.recognition = .tokenizing then .aborted else .done }

/-- At a separator of `n` characters, which becomes the lexeme unless a token is in progress. -/
def lineEnded (n : Nat) (e : Engine) : Engine :=
  let stopped := { e with lineState := .atLineEnd }
  if e.recognition = .ready then stopped.showSeparator n else stopped

theorem ensureScannable_eq {e : Engine} (h : e.Scannable) : ensureScannable e = .ok () e := by
  rcases h with h | h | h <;> simp [ensureScannable, h, RecognitionState.isTerminal]

theorem ensureScannable_refuses {e : Engine} (h : ¬ e.Scannable) :
    ∃ fault, fault.kind = .lexical ∧ ensureScannable e = .error fault e := by
  unfold Scannable at h
  cases hr : e.recognition with
  | ready | tokenizing | recognized => simp [hr] at h
  | waitingForInput => exact ⟨.plain .noInput, rfl, by simp [ensureScannable, hr]⟩
  | done | failed | aborted =>
    exact ⟨.located (.scanPastEnd e.recognition) e.currentPosition, rfl,
      by simp [ensureScannable, hr, RecognitionState.isTerminal]⟩

theorem releaseToken_eq (e : Engine) : releaseToken e = .ok () e.released := by
  unfold releaseToken released
  simp only [Program.bind_apply, Program.get_apply]
  split
  · next h =>
    simp [fireRecognition, h, RecognitionState.on, RecognitionState.target, enterRecognition,
      clearLexeme]
  · rfl

theorem leaveLine_eq (e : Engine) : leaveLine e = .ok () e.lineBegun := by
  unfold leaveLine lineBegun
  simp only [Program.bind_apply, Program.get_apply]
  split
  · next h => simp [fireLine, h.1, LineState.on, enterLine]
  · rfl

theorem indentation?_eq_some {e : Engine} {n : Nat} (h : e.indentation? = some n) :
    e.lineState = .atLineStart ∧ 0 < n ∧ e.pos + n ≤ e.input.length := by
  unfold indentation? at h
  split at h
  · next hl =>
    obtain ⟨p, -, hp⟩ := Option.bind_eq_some_iff.mp h
    exact ⟨hl, Pattern.consumedAt?_within hp⟩
  · cases h

theorem takeIndentation_eq {e : Engine} (h : e.Unclaimed) :
    takeIndentation e = match e.indentation? with
      | none => .ok false e
      | some n => .ok true (e.indented n) := by
  unfold takeIndentation
  simp only [Program.bind_apply, Program.get_apply]
  cases hi : e.indentation? with
  | none => rfl
  | some n =>
    have hl := (indentation?_eq_some hi).1
    rcases h with h | h <;>
      simp [fireLine, takeChars, advance, pushLexeme, hl, h, LineState.on, enterLine,
        fireRecognition, RecognitionState.on, RecognitionState.target, enterRecognition, indented]

theorem reportEnd_eq {e : Engine} (h : e.Unclaimed) :
    reportEnd e =
      if e.atEnd then .ok (some .endOfStream) e.ended
      else match e.separator? with
        | none => .ok none e
        | some n => .ok (some .lineEnd) (e.lineEnded n) := by
  unfold reportEnd
  simp only [Program.bind_apply, Program.get_apply]
  split
  · rcases h with h | h <;>
      simp [fireRecognition, h, RecognitionState.on, RecognitionState.target, enterRecognition,
        ended]
  · cases e.separator? with
    | none => rfl
    | some n => rcases h with h | h <;> simp [fireLine, LineState.on, enterLine, h, lineEnded]

@[simp] theorem released_text (e : Engine) :
    e.released.config = e.config ∧ e.released.input = e.input ∧
    e.released.toMark = e.toMark := by
  unfold released
  split <;> exact ⟨rfl, rfl, rfl⟩

@[simp] theorem lineBegun_text (e : Engine) :
    e.lineBegun.config = e.config ∧ e.lineBegun.input = e.input ∧
    e.lineBegun.recognition = e.recognition := by
  unfold lineBegun
  split <;> exact ⟨rfl, rfl, rfl⟩

@[simp] theorem opened_text (e : Engine) :
    e.opened.config = e.config ∧ e.opened.input = e.input := by
  simp [opened]

@[simp] theorem skipNoise_text (e : Engine) :
    e.skipNoise.config = e.config ∧ e.skipNoise.input = e.input ∧
    e.skipNoise.recognition = e.recognition ∧ e.skipNoise.lexeme = e.lexeme ∧
    e.skipNoise.anchor = e.anchor ∧ e.skipNoise.lineState = e.lineState := by
  unfold skipNoise
  split
  · exact ⟨rfl, rfl, rfl, rfl, rfl, rfl⟩
  · dsimp only
    split <;> exact ⟨rfl, rfl, rfl, rfl, rfl, rfl⟩

@[simp] theorem lineEnded_text (n : Nat) (e : Engine) :
    (e.lineEnded n).config = e.config ∧ (e.lineEnded n).input = e.input ∧
    (e.lineEnded n).recognition = e.recognition ∧ (e.lineEnded n).pos = e.pos ∧
    (e.lineEnded n).lineState = .atLineEnd := by
  unfold lineEnded
  dsimp only
  split <;> exact ⟨rfl, rfl, rfl, rfl, rfl⟩

theorem released_unclaimed {e : Engine} (h : e.Scannable) : e.released.Unclaimed := by
  unfold released
  split
  · exact .inl rfl
  · next hr => exact h.imp_right fun h => h.resolve_right hr

theorem opened_unclaimed {e : Engine} (h : e.Scannable) : e.opened.Unclaimed := by
  simpa [Unclaimed, opened] using released_unclaimed h

theorem skipNoise_pos (e : Engine) :
    e.skipNoise.pos = e.pos + (e.config.noise.consumedAt? e.input e.pos).getD 0 := by
  unfold skipNoise
  split
  · next h => simp [h]
  · next n h =>
    rw [h]
    dsimp only
    split <;> rfl

theorem pos_le_skipNoise (e : Engine) : e.pos ≤ e.skipNoise.pos := by
  have := skipNoise_pos e
  omega

theorem pos_le_opened (e : Engine) : e.pos ≤ e.opened.pos := by
  have hr : e.released.pos = e.pos := by simp
  unfold opened lineBegun
  split
  · simp only [beginLine]
    omega
  · omega

/-- The four ways in which a layout step can end, with what it reports. -/
inductive LaidOut (e : Engine) : Option Outcome → Engine → Prop where
  | indentation {n : Nat} (h : e.opened.indentation? = some n) :
      LaidOut e (some .indentation) (e.opened.indented n)
  | endOfStream (h : e.opened.indentation? = none) (he : e.opened.skipNoise.atEnd = true) :
      LaidOut e (some .endOfStream) e.opened.skipNoise.ended
  | lineEnd {n : Nat} (h : e.opened.indentation? = none)
      (he : e.opened.skipNoise.atEnd = false) (hs : e.opened.skipNoise.separator? = some n) :
      LaidOut e (some .lineEnd) (e.opened.skipNoise.lineEnded n)
  | body (h : e.opened.indentation? = none) (he : e.opened.skipNoise.atEnd = false)
      (hs : e.opened.skipNoise.separator? = none) : LaidOut e none e.opened.skipNoise

theorem LaidOut.opened_le {e e' : Engine} {o : Option Outcome} (h : LaidOut e o e') :
    e.opened.pos ≤ e'.pos := by
  have hn := pos_le_skipNoise e.opened
  cases h with
  | indentation => exact Nat.le_add_right _ _
  | endOfStream => exact hn
  | lineEnd => simpa using hn
  | body => exact hn

theorem LaidOut.indentation_recognized {e e' : Engine} (h : LaidOut e (some .indentation) e') :
    e'.recognition = .recognized := by
  cases h
  rfl

theorem scanLayout_eq {e : Engine} (h : e.Scannable) :
    scanLayout e = match e.opened.indentation? with
      | some n => .ok (some .indentation) (e.opened.indented n)
      | none =>
        if e.opened.skipNoise.atEnd then .ok (some .endOfStream) e.opened.skipNoise.ended
        else match e.opened.skipNoise.separator? with
          | none => .ok none e.opened.skipNoise
          | some n => .ok (some .lineEnd) (e.opened.skipNoise.lineEnded n) := by
  have ho := opened_unclaimed h
  have hn : e.opened.skipNoise.Unclaimed := by simpa [Unclaimed] using ho
  simp only [scanLayout, Program.bind_apply, ensureScannable_eq h, releaseToken_eq, leaveLine_eq]
  rw [show e.released.lineBegun = e.opened from rfl, takeIndentation_eq ho]
  cases e.opened.indentation? with
  | some n => rfl
  | none => simpa using reportEnd_eq hn

theorem scanLayout_eq_ok_iff {e e' : Engine} {o : Option Outcome} :
    scanLayout e = .ok o e' ↔ e.Scannable ∧ LaidOut e o e' := by
  constructor
  · intro h
    have hs : e.Scannable := by
      by_cases hs : e.Scannable
      · exact hs
      · obtain ⟨fault, -, hf⟩ := ensureScannable_refuses hs
        simp [scanLayout, hf] at h
    refine ⟨hs, ?_⟩
    rw [scanLayout_eq hs] at h
    cases hi : e.opened.indentation? with
    | some n =>
      simp only [hi, EStateM.Result.ok.injEq] at h
      obtain ⟨rfl, rfl⟩ := h
      exact .indentation hi
    | none =>
      cases he : e.opened.skipNoise.atEnd with
      | true =>
        simp only [hi, he, ↓reduceIte, EStateM.Result.ok.injEq] at h
        obtain ⟨rfl, rfl⟩ := h
        exact .endOfStream hi he
      | false =>
        cases hp : e.opened.skipNoise.separator? with
        | none =>
          simp only [hi, he, hp, Bool.false_eq_true, ↓reduceIte, EStateM.Result.ok.injEq] at h
          obtain ⟨rfl, rfl⟩ := h
          exact .body hi he hp
        | some n =>
          simp only [hi, he, hp, Bool.false_eq_true, ↓reduceIte, EStateM.Result.ok.injEq] at h
          obtain ⟨rfl, rfl⟩ := h
          exact .lineEnd hi he hp
  · rintro ⟨hs, h⟩
    rw [scanLayout_eq hs]
    cases h with
    | indentation hi => simp [hi]
    | endOfStream hi he => simp [hi, he]
    | lineEnd hi he hp => simp [hi, he, hp]
    | body hi he hp => simp [hi, he, hp]

theorem scanLayout_total {e : Engine} (h : e.Scannable) :
    ∃ o e', scanLayout e = .ok o e' := by
  rw [scanLayout_eq h]
  split
  · exact ⟨_, _, rfl⟩
  · split
    · exact ⟨_, _, rfl⟩
    · split <;> exact ⟨_, _, rfl⟩

theorem scanLayout_refuses {e : Engine} (h : ¬ e.Scannable) :
    ∃ fault, fault.kind = .lexical ∧ scanLayout e = .error fault e := by
  obtain ⟨fault, hk, hf⟩ := ensureScannable_refuses h
  exact ⟨fault, hk, by simp [scanLayout, hf]⟩

end TableLexer.Engine
