import TableLexer.Proofs.Engine.Operations

/-!
# Commands to an engine

Everything that can be asked of an engine, and where sequences of commands lead. A command that
is refused counts too: it leads to the engine it left behind.
-/
namespace TableLexer.Engine

inductive Command where
  | setInput (text : List Char)
  | scan (p : Pattern)
  | scanLayout
  | nextChar
  | undoScan
  | clearLexeme
  | markRecognized
  | markFailed
  | resetRecognition
  | takeToken
  | addSnapshot
  | restoreSnapshot
  | popSnapshot
  deriving DecidableEq, Repr

def next (e : Engine) : Command → Engine
  | .setInput text => Program.final (setInput text e)
  | .scan p => Program.final (scan p e)
  | .scanLayout => Program.final (scanLayout e)
  | .nextChar => Program.final (nextChar e)
  | .undoScan => Program.final (undoScan e)
  | .clearLexeme => e.clearLexeme
  | .markRecognized => Program.final (markRecognized e)
  | .markFailed => Program.final (markFailed e)
  | .resetRecognition => Program.final (resetRecognition e)
  | .takeToken => e.takeToken.2
  | .addSnapshot => e.addSnapshot
  | .restoreSnapshot => Program.final (restoreSnapshot e)
  | .popSnapshot => e.popSnapshot.2

def after (e : Engine) : List Command → Engine
  | [] => e
  | c :: cs => (e.next c).after cs

def restarted (text : List Char) (e : Engine) : Engine :=
  { e with toScan := .initial .ready, input := text, snapshots := [] }

theorem setInput_eq (text : List Char) (e : Engine) :
    setInput text e =
      if e.recognition = .tokenizing then .error (.plain .inputDuringToken) e
      else .ok () (e.restarted text) := by
  cases h : e.recognition <;>
    simp [setInput, h, fireRecognition, RecognitionState.on, enterRecognition, reset, restarted]

variable {e e' : Engine}

theorem eq_restarted_of_setInput {text : List Char} (h : setInput text e = .ok () e') :
    e' = e.restarted text := by
  rw [setInput_eq] at h
  split at h
  · cases h
  · cases h
    rfl

/-- A scan succeeds unless the line machine stands at a line end without a separator. -/
theorem scan_succeeds (hs : e.Scannable) (p : Pattern)
    (h : ∀ e₁, LaidOut e none e₁ → e₁.lineState ≠ .atLineEnd) :
    ∃ o e', scan p e = .ok o e' ∧ Scanned p e o e' := by
  obtain ⟨o, e₁, hl⟩ := scanLayout_total hs
  have hlaid := (scanLayout_eq_ok_iff.mp hl).2
  rw [scan_eq p hl]
  cases o with
  | some outcome => exact ⟨_, _, rfl, .layout hlaid⟩
  | none =>
    dsimp only
    rw [tryPattern_eq p (hlaid.unclaimed hs)]
    cases hm : p.matchAt? e₁.input e₁.pos with
    | none => exact ⟨_, _, rfl, .miss hlaid hm⟩
    | some n =>
      have hne := h e₁ hlaid
      exact ⟨_, _, by simp only [if_neg hne], .token hlaid hm hne⟩

theorem nextChar_succeeds (hs : e.Scannable)
    (h : e.lineState = .atLineEnd → e.separator?.isSome) :
    ∃ c e', nextChar e = .ok c e' ∧ CharRead e c e' := by
  rw [nextChar_eq hs]
  cases hc : e.input[e.pos]? with
  | none => exact ⟨_, _, rfl, .endOfStream hc⟩
  | some c =>
    cases hp : e.separator? with
    | some n => exact ⟨_, _, rfl, .separator hc hp⟩
    | none =>
      have hne : e.lineState ≠ .atLineEnd := by
        intro hl
        simpa [hp] using h hl
      exact ⟨_, _, by simp only [if_neg hne], .plain hc hp hne⟩

@[simp] theorem released_snapshots (e : Engine) : e.released.snapshots = e.snapshots := by
  unfold released
  split <;> rfl

@[simp] theorem released_anchor (e : Engine) : e.released.anchor = e.anchor := by
  unfold released
  split <;> rfl

@[simp] theorem opened_snapshots (e : Engine) : e.opened.snapshots = e.snapshots := by
  unfold opened lineBegun
  split <;> simp [beginLine]

@[simp] theorem opened_anchor (e : Engine) : e.opened.anchor = e.anchor := by
  unfold opened lineBegun
  split <;> simp [beginLine]

@[simp] theorem skipNoise_snapshots (e : Engine) : e.skipNoise.snapshots = e.snapshots := by
  unfold skipNoise
  split
  · rfl
  · dsimp only
    split <;> rfl

@[simp] theorem lineEnded_snapshots (n : Nat) (e : Engine) :
    (e.lineEnded n).snapshots = e.snapshots := by
  unfold lineEnded
  dsimp only
  split <;> rfl

@[simp] theorem tokenTaken_snapshots (p : Pattern) (n : Nat) (e : Engine) :
    (e.tokenTaken p n).snapshots = e.snapshots := by
  unfold tokenTaken takeMatch
  dsimp only
  split <;> rfl

@[simp] theorem recognizedNow_snapshots (e : Engine) :
    e.recognizedNow.snapshots = e.snapshots := by
  unfold recognizedNow
  split <;> rfl

@[simp] theorem failedNow_snapshots (e : Engine) : e.failedNow.snapshots = e.snapshots := by
  unfold failedNow
  split <;> rfl

@[simp] theorem rested_snapshots (e : Engine) : e.rested.snapshots = e.snapshots := by
  unfold rested
  split <;> rfl

@[simp] theorem undone_snapshots (e : Engine) : e.undone.snapshots = e.snapshots := by
  unfold undone
  split
  · rfl
  · exact rested_snapshots _

theorem LaidOut.snapshots {o : Option Outcome} (h : LaidOut e o e') :
    e'.snapshots = e.snapshots := by
  cases h with
  | indentation => exact opened_snapshots e
  | endOfStream => exact (skipNoise_snapshots _).trans (opened_snapshots e)
  | lineEnd => simp
  | body => simp

theorem Scanned.snapshots {p : Pattern} {o : Option Outcome} (h : Scanned p e o e') :
    e'.snapshots = e.snapshots := by
  cases h with
  | layout hl => exact hl.snapshots
  | miss hl => exact hl.snapshots
  | token hl => simpa using hl.snapshots

theorem CharRead.snapshots {c : Option Char} (h : CharRead e c e') :
    e'.snapshots = e.snapshots := by
  cases h <;> exact released_snapshots e

/-- The ways in which a command can be carried out while scans are not broken off. One that is
refused changes nothing. -/
inductive Commanded (e : Engine) : Command → Engine → Prop where
  | refused (c : Command) : Commanded e c e
  | setInput (text : List Char) : Commanded e (.setInput text) (e.restarted text)
  | scan {p : Pattern} {o : Option Outcome} {e' : Engine} (hs : scan p e = .ok o e')
      (h : Scanned p e o e') : Commanded e (.scan p) e'
  | scanLayout {o : Option Outcome} {e' : Engine} (h : LaidOut e o e') :
      Commanded e .scanLayout e'
  | nextChar {c : Option Char} {e' : Engine} (h : CharRead e c e') : Commanded e .nextChar e'
  | undoScan : Commanded e .undoScan e.undone
  | clearLexeme : Commanded e .clearLexeme e.clearLexeme
  | markRecognized : Commanded e .markRecognized e.recognizedNow
  | markFailed : Commanded e .markFailed e.failedNow
  | resetRecognition : Commanded e .resetRecognition e.rested
  | takeToken : Commanded e .takeToken e.clearLexeme
  | addSnapshot : Commanded e .addSnapshot e.addSnapshot
  | restoreSnapshot {saved : Scan} {older : List Scan} (h : e.snapshots = saved :: older) :
      Commanded e .restoreSnapshot { e with toScan := saved, snapshots := older }
  | popSnapshot : Commanded e .popSnapshot { e with snapshots := e.snapshots.tail }

theorem next_commanded (hbody : ∀ e₁, LaidOut e none e₁ → e₁.lineState ≠ .atLineEnd)
    (hpending : e.lineState = .atLineEnd → e.separator?.isSome) (c : Command) :
    Commanded e c (e.next c) := by
  cases c with
  | setInput text =>
    simp only [next, setInput_eq]
    split
    · exact .refused _
    · exact .setInput text
  | scan p =>
    by_cases hs : e.Scannable
    · obtain ⟨o, e', hscan, hscanned⟩ := scan_succeeds hs p hbody
      simp only [next, hscan]
      exact .scan hscan hscanned
    · obtain ⟨fault, -, hf⟩ := scanLayout_refuses hs
      simpa [next, Engine.scan, hf] using Commanded.refused (.scan p)
  | scanLayout =>
    by_cases hs : e.Scannable
    · obtain ⟨o, e', hlay⟩ := scanLayout_total hs
      simp only [next, hlay]
      exact .scanLayout (scanLayout_eq_ok_iff.mp hlay).2
    · obtain ⟨fault, -, hf⟩ := scanLayout_refuses hs
      simpa [next, hf] using Commanded.refused .scanLayout
  | nextChar =>
    by_cases hs : e.Scannable
    · obtain ⟨c, e', hread, hchar⟩ := nextChar_succeeds hs hpending
      simp only [next, hread]
      exact .nextChar hchar
    · obtain ⟨fault, -, hf⟩ := nextChar_refuses hs
      simpa [next, hf] using Commanded.refused .nextChar
  | undoScan => simpa [next, undoScan_eq] using Commanded.undoScan
  | markRecognized => simpa [next, markRecognized_eq] using Commanded.markRecognized
  | markFailed => simpa [next, markFailed_eq] using Commanded.markFailed
  | resetRecognition => simpa [next, resetRecognition_eq] using Commanded.resetRecognition
  | clearLexeme => exact .clearLexeme
  | takeToken => exact .takeToken
  | addSnapshot => exact .addSnapshot
  | restoreSnapshot =>
    simp only [next, restoreSnapshot]
    split
    · exact .refused _
    · next hsaved => exact .restoreSnapshot hsaved
  | popSnapshot => exact .popSnapshot

theorem next_config (e : Engine) (c : Command) : (e.next c).config = e.config := by
  cases c with
  | setInput text =>
    simp only [next, setInput_eq]
    split <;> rfl
  | scan p => exact (scan_sameText p e).config
  | scanLayout => exact (scanLayout_sameText e).config
  | nextChar => exact (nextChar_sameText e).config
  | undoScan => simpa [next, undoScan_eq] using (undone_sameText e).config
  | markRecognized => simpa [next, markRecognized_eq] using (recognizedNow_sameText e).config
  | markFailed => simpa [next, markFailed_eq] using (failedNow_sameText e).config
  | resetRecognition => simpa [next, resetRecognition_eq] using (rested_sameText e).config
  | restoreSnapshot =>
    simp only [next, restoreSnapshot]
    split <;> rfl
  | clearLexeme | takeToken | addSnapshot | popSnapshot => rfl

theorem after_config (e : Engine) (cs : List Command) : (e.after cs).config = e.config := by
  induction cs generalizing e with
  | nil => rfl
  | cons c cs ih => exact (ih (e.next c)).trans (next_config e c)

end TableLexer.Engine
