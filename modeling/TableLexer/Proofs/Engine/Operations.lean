import TableLexer.Proofs.Engine.Layout

/-!
# Scans, characters and putting back

The operations of the engine that rules call for, each as the engine it leads to. Two of them
can be refused in the middle: a match or a character is taken before the line machine is asked,
and it refuses both at the end of a line that has not begun anew.
-/
namespace TableLexer.Engine

def tokenTaken (p : Pattern) (n : Nat) (e : Engine) : Engine :=
  { e.takeMatch p n with lineState := .inLineBody, recognition := .recognized }

@[simp] theorem takeMatch_text (p : Pattern) (n : Nat) (e : Engine) :
    (e.takeMatch p n).config = e.config ∧ (e.takeMatch p n).input = e.input ∧
    (e.takeMatch p n).recognition = e.recognition ∧ (e.takeMatch p n).pos = e.pos + n ∧
    (e.takeMatch p n).lineState = e.lineState ∧
    (e.takeMatch p n).lexeme = e.lexeme ++ e.upcoming n ∧
    (e.takeMatch p n).anchor = (if e.lexeme.isEmpty then e.toMark else e.anchor) := by
  unfold takeMatch
  dsimp only
  split <;> exact ⟨rfl, rfl, rfl, rfl, rfl, rfl, rfl⟩

theorem tryPattern_eq (p : Pattern) {e : Engine} (h : e.Unclaimed) :
    tryPattern p e = match p.matchAt? e.input e.pos with
      | none => .ok none e
      | some n =>
        if e.lineState = .atLineEnd then
          .error (.located (.lineEventRefused .expectedCharChecked .atLineEnd)
            (e.takeMatch p n).currentPosition) (e.takeMatch p n)
        else .ok (some .token) (e.tokenTaken p n) := by
  unfold tryPattern
  simp only [Program.bind_apply, Program.get_apply]
  cases p.matchAt? e.input e.pos with
  | none => rfl
  | some n =>
    cases hl : e.lineState with
    | atLineEnd => simp [fireLine, LineState.on, hl]
    | atLineStart | afterIndentation | inLineBody =>
      rcases h with h | h <;>
        simp [fireLine, LineState.on, hl, enterLine, fireRecognition, RecognitionState.on,
          RecognitionState.target, enterRecognition, h, tokenTaken]

/-- What a scan can find: the layout keeps the pattern from being tried, or it is tried. -/
inductive Scanned (p : Pattern) (e : Engine) : Option Outcome → Engine → Prop where
  | layout {o : Outcome} {e' : Engine} (h : LaidOut e (some o) e') : Scanned p e (some o) e'
  | miss {e' : Engine} (h : LaidOut e none e') (hm : p.matchAt? e'.input e'.pos = none) :
      Scanned p e none e'
  | token {e' : Engine} {n : Nat} (h : LaidOut e none e')
      (hm : p.matchAt? e'.input e'.pos = some n) (hl : e'.lineState ≠ .atLineEnd) :
      Scanned p e (some .token) (e'.tokenTaken p n)

theorem LaidOut.unclaimed {e e' : Engine} (h : LaidOut e none e') (hs : e.Scannable) :
    e'.Unclaimed := by
  cases h
  simpa [Unclaimed] using opened_unclaimed hs

theorem scan_eq (p : Pattern) {e e' : Engine} {o : Option Outcome}
    (h : scanLayout e = .ok o e') :
    scan p e = match o with
      | some outcome => .ok (some outcome) e'
      | none => tryPattern p e' := by
  cases o <;> simp [scan, h]

theorem scan_cases {p : Pattern} {e e' : Engine} {o : Option Outcome}
    (h : scan p e = .ok o e') : e.Scannable ∧ Scanned p e o e' := by
  by_cases hs : e.Scannable
  · obtain ⟨o₁, e₁, hl⟩ := scanLayout_total hs
    have hlaid := (scanLayout_eq_ok_iff.mp hl).2
    rw [scan_eq p hl] at h
    cases o₁ with
    | some outcome =>
      simp only [EStateM.Result.ok.injEq] at h
      obtain ⟨rfl, rfl⟩ := h
      exact ⟨hs, .layout hlaid⟩
    | none =>
      rw [tryPattern_eq p (hlaid.unclaimed hs)] at h
      cases hm : p.matchAt? e₁.input e₁.pos with
      | none =>
        simp only [hm, EStateM.Result.ok.injEq] at h
        obtain ⟨rfl, rfl⟩ := h
        exact ⟨hs, .miss hlaid hm⟩
      | some n =>
        by_cases he : e₁.lineState = .atLineEnd
        · simp [hm, he] at h
        · simp only [hm, he, ↓reduceIte, EStateM.Result.ok.injEq] at h
          obtain ⟨rfl, rfl⟩ := h
          exact ⟨hs, .token hlaid hm he⟩
  · obtain ⟨fault, -, hf⟩ := scanLayout_refuses hs
    simp [scan, hf] at h

/-- A scan that fails was not allowed, or broke an invariant of the line machine. -/
theorem scan_fails {p : Pattern} {e e' : Engine} {fault : LexError}
    (h : scan p e = .error fault e') :
    fault.kind = .lexical ∧ ¬ e.Scannable ∧ e' = e ∨ fault.kind = .internal := by
  by_cases hs : e.Scannable
  · obtain ⟨o₁, e₁, hl⟩ := scanLayout_total hs
    have hlaid := (scanLayout_eq_ok_iff.mp hl).2
    rw [scan_eq p hl] at h
    cases o₁ with
    | some outcome => cases h
    | none =>
      rw [tryPattern_eq p (hlaid.unclaimed hs)] at h
      cases hm : p.matchAt? e₁.input e₁.pos with
      | none => simp [hm] at h
      | some n =>
        by_cases he : e₁.lineState = .atLineEnd
        · simp only [hm, he, ↓reduceIte, EStateM.Result.error.injEq] at h
          exact .inr (h.1 ▸ rfl)
        · simp [hm, he] at h
  · obtain ⟨fault₁, hk, hf⟩ := scanLayout_refuses hs
    simp only [scan, Program.bind_apply, hf, EStateM.Result.error.injEq] at h
    obtain ⟨rfl, rfl⟩ := h
    exact .inl ⟨hk, hs, rfl⟩

/-- The engine that a scan leaves behind, also one that is not allowed or is broken off behind
its match. -/
inductive ScanLeft (p : Pattern) (e : Engine) : Engine → Prop where
  | refused (hs : ¬ e.Scannable) : ScanLeft p e e
  | scanned (hs : e.Scannable) {o : Option Outcome} {e' : Engine} (h : Scanned p e o e') :
      ScanLeft p e e'
  | brokenOff (hs : e.Scannable) {e' : Engine} {n : Nat} (h : LaidOut e none e')
      (hm : p.matchAt? e'.input e'.pos = some n) (hl : e'.lineState = .atLineEnd) :
      ScanLeft p e (e'.takeMatch p n)

theorem scan_left (p : Pattern) (e : Engine) : ScanLeft p e (Program.final (scan p e)) := by
  by_cases hs : e.Scannable
  · obtain ⟨o, e', h⟩ := scanLayout_total hs
    have hlaid := (scanLayout_eq_ok_iff.mp h).2
    rw [scan_eq p h]
    cases o with
    | some outcome => exact .scanned hs (.layout hlaid)
    | none =>
      dsimp only
      rw [tryPattern_eq p (hlaid.unclaimed hs)]
      cases hm : p.matchAt? e'.input e'.pos with
      | none => exact .scanned hs (.miss hlaid hm)
      | some n =>
        by_cases hl : e'.lineState = .atLineEnd
        · simp only [if_pos hl]
          exact .brokenOff hs hlaid hm hl
        · simp only [if_neg hl]
          exact .scanned hs (.token hlaid hm hl)
  · obtain ⟨fault, -, hf⟩ := scanLayout_refuses hs
    simpa [scan, hf] using ScanLeft.refused hs

def charTaken (e : Engine) : Engine :=
  { e.takeChars 1 with lineState := .inLineBody, recognition := .tokenizing }

def keptLexeme (e : Engine) : List Char :=
  if e.lineState = .atLineEnd ∧ e.recognition = .ready then [] else e.lexeme

def separatorTaken (n : Nat) (e : Engine) : Engine :=
  { e with
    pos := e.pos + n
    line := e.line + 1
    lineStart := e.pos + n
    lineState := .inLineBody
    lexeme := e.keptLexeme ++ e.upcoming n
    anchor := if e.keptLexeme.isEmpty then e.toMark else e.anchor
    recognition := .tokenizing }

theorem takeSeparator_eq {e : Engine} {n : Nat} (h : e.separator? = some n) :
    takeSeparator n e =
      .ok () { e.separatorTaken n with
        lineState := .atLineStart, recognition := e.recognition } := by
  have hs : e.config.eol.consumedAt? e.input e.pos = some n := h
  unfold takeSeparator
  simp only [Program.bind_apply, Program.get_apply, Program.set_apply, clearLexeme]
  split
  · simp [fireLine, LineState.on, enterLine, beginLine, separator?, hs, separatorTaken,
      keptLexeme, pushLexeme]
  · next hl =>
    have hl : e.lineState = .atLineEnd := by simpa using hl
    simp [fireLine, LineState.on, enterLine, beginLine, separator?, hs, separatorTaken,
      keptLexeme, pushLexeme, hl]

inductive CharRead (e : Engine) : Option Char → Engine → Prop where
  | endOfStream (h : e.input[e.pos]? = none) : CharRead e none e.released.ended
  | separator {c : Char} {n : Nat} (h : e.input[e.pos]? = some c)
      (hs : e.separator? = some n) : CharRead e (some c) (e.released.separatorTaken n)
  | plain {c : Char} (h : e.input[e.pos]? = some c)
      (hs : e.separator? = none) (hl : e.lineState ≠ .atLineEnd) :
      CharRead e (some c) e.released.charTaken

theorem CharRead.tokenizing {e e' : Engine} {c : Char} (h : CharRead e (some c) e') :
    e'.recognition = .tokenizing := by
  cases h <;> rfl

theorem nextChar_eq {e : Engine} (h : e.Scannable) :
    nextChar e = match e.input[e.pos]? with
      | none => .ok none e.released.ended
      | some c => match e.separator? with
        | some n => .ok (some c) (e.released.separatorTaken n)
        | none =>
          if e.lineState = .atLineEnd then
            .error (.located (.lineEventRefused .expectedCharChecked .atLineEnd)
              (e.released.takeChars 1).currentPosition) (e.released.takeChars 1)
          else .ok (some c) e.released.charTaken := by
  have hu := released_unclaimed h
  have hi : e.input[e.pos]? = e.released.input[e.released.pos]? := by simp
  have hp : e.separator? = e.released.separator? := by simp [separator?]
  have hl : e.lineState = e.released.lineState := by simp
  rw [hi, hp, hl]
  simp only [nextChar, Program.bind_apply, ensureScannable_eq h, releaseToken_eq,
    Program.get_apply]
  clear hi hp hl
  generalize e.released = r at hu
  cases hc : r.input[r.pos]? with
  | none =>
    rcases hu with hu | hu <;>
      simp [fireRecognition, RecognitionState.on, RecognitionState.target, enterRecognition, hu,
        ended]
  | some c =>
    cases hs : r.separator? with
    | some n =>
      rcases hu with hu | hu <;>
        simp [takeSeparator_eq hs, fireLine, LineState.on, enterLine, fireRecognition,
          RecognitionState.on, RecognitionState.target, enterRecognition, hu, separatorTaken]
    | none =>
      have ht : (r.takeChars 1).lineState = r.lineState := rfl
      cases hl : r.lineState with
      | atLineEnd => simp [fireLine, LineState.on, ht, hl]
      | atLineStart | afterIndentation | inLineBody =>
        rcases hu with hu | hu <;>
          simp [fireLine, LineState.on, takeChars, advance, pushLexeme, hl, enterLine,
            fireRecognition, RecognitionState.on, RecognitionState.target, enterRecognition, hu,
            charTaken]

theorem nextChar_refuses {e : Engine} (h : ¬ e.Scannable) :
    ∃ fault, fault.kind = .lexical ∧ nextChar e = .error fault e := by
  obtain ⟨fault, hk, hf⟩ := ensureScannable_refuses h
  exact ⟨fault, hk, by simp [nextChar, hf]⟩

theorem nextChar_cases {e e' : Engine} {c : Option Char} (h : nextChar e = .ok c e') :
    e.Scannable ∧ CharRead e c e' := by
  by_cases hs : e.Scannable
  · refine ⟨hs, ?_⟩
    rw [nextChar_eq hs] at h
    cases hc : e.input[e.pos]? with
    | none =>
      simp only [hc, EStateM.Result.ok.injEq] at h
      obtain ⟨rfl, rfl⟩ := h
      exact .endOfStream hc
    | some x =>
      cases hp : e.separator? with
      | some n =>
        simp only [hc, hp, EStateM.Result.ok.injEq] at h
        obtain ⟨rfl, rfl⟩ := h
        exact .separator hc hp
      | none =>
        by_cases he : e.lineState = .atLineEnd
        · simp only [hc, hp, he, ↓reduceIte, reduceCtorEq] at h
        · simp only [hc, hp, he, ↓reduceIte, EStateM.Result.ok.injEq] at h
          obtain ⟨rfl, rfl⟩ := h
          exact .plain hc hp he
  · obtain ⟨fault, -, hf⟩ := nextChar_refuses hs
    simp [hf] at h

/-- Reading fails where it is not allowed, or where it breaks an invariant of the line
machine. -/
theorem nextChar_fails {e e' : Engine} {fault : LexError} (h : nextChar e = .error fault e') :
    fault.kind = .lexical ∧ ¬ e.Scannable ∧ e' = e ∨ fault.kind = .internal := by
  by_cases hs : e.Scannable
  · rw [nextChar_eq hs] at h
    cases hc : e.input[e.pos]? with
    | none => simp [hc] at h
    | some x =>
      cases hp : e.separator? with
      | some n => simp [hc, hp] at h
      | none =>
        by_cases he : e.lineState = .atLineEnd
        · simp only [hc, hp, he, ↓reduceIte, EStateM.Result.error.injEq] at h
          exact .inr (h.1 ▸ rfl)
        · simp only [hc, hp, he, ↓reduceIte, reduceCtorEq] at h
  · obtain ⟨fault₁, hk, hf⟩ := nextChar_refuses hs
    simp only [hf, EStateM.Result.error.injEq] at h
    obtain ⟨rfl, rfl⟩ := h
    exact .inl ⟨hk, hs, rfl⟩

inductive CharLeft (e : Engine) : Engine → Prop where
  | refused (hs : ¬ e.Scannable) : CharLeft e e
  | read (hs : e.Scannable) {c : Option Char} {e' : Engine} (h : CharRead e c e') : CharLeft e e'
  | brokenOff (hs : e.Scannable) {c : Char} (h : e.input[e.pos]? = some c)
      (hp : e.separator? = none) (hl : e.lineState = .atLineEnd) :
      CharLeft e (e.released.takeChars 1)

theorem nextChar_left (e : Engine) : CharLeft e (Program.final (nextChar e)) := by
  by_cases hs : e.Scannable
  · rw [nextChar_eq hs]
    cases hc : e.input[e.pos]? with
    | none => exact .read hs (.endOfStream hc)
    | some c =>
      cases hp : e.separator? with
      | some n => exact .read hs (.separator hc hp)
      | none =>
        by_cases hl : e.lineState = .atLineEnd
        · simp only [if_pos hl]
          exact .brokenOff hs hc hp hl
        · simp only [if_neg hl]
          exact .read hs (.plain hc hp hl)
  · obtain ⟨fault, -, hf⟩ := nextChar_refuses hs
    simpa [hf] using CharLeft.refused hs

def recognizedNow (e : Engine) : Engine :=
  if e.Unclaimed then { e with recognition := .recognized } else e

def failedNow (e : Engine) : Engine :=
  if e.recognition = .tokenizing ∨ e.recognition = .recognized then
    { e with recognition := .failed }
  else e

def rested (e : Engine) : Engine :=
  if e.recognition = .tokenizing ∨ e.recognition = .recognized ∨ e.recognition = .failed then
    { e with recognition := .ready, lexeme := [] }
  else e

def undone (e : Engine) : Engine :=
  if e.lexeme.isEmpty then e else { e with toMark := e.anchor, lexeme := [] }.rested

theorem markRecognized_eq (e : Engine) : markRecognized e = .ok () e.recognizedNow := by
  cases h : e.recognition <;>
    simp [markRecognized, recognizedNow, Unclaimed, h, fireRecognition, RecognitionState.on,
      RecognitionState.target, enterRecognition]

theorem markFailed_eq (e : Engine) : markFailed e = .ok () e.failedNow := by
  cases h : e.recognition <;>
    simp [markFailed, failedNow, h, fireRecognition, RecognitionState.on,
      RecognitionState.target, enterRecognition]

theorem resetRecognition_eq (e : Engine) : resetRecognition e = .ok () e.rested := by
  cases h : e.recognition <;>
    simp [resetRecognition, rested, h, fireRecognition, RecognitionState.on,
      RecognitionState.target, enterRecognition, clearLexeme]

theorem undoScan_eq (e : Engine) : undoScan e = .ok () e.undone := by
  unfold undoScan undone
  simp only [Program.bind_apply, Program.get_apply]
  split
  · rfl
  · simp [resetRecognition_eq]

theorem undone_lexeme (e : Engine) : e.undone.lexeme = [] := by
  unfold undone
  split
  · next hx => simpa using hx
  · simp only [rested]
    split <;> rfl

structure SameText (e e' : Engine) : Prop where
  config : e'.config = e.config
  input : e'.input = e.input

theorem SameText.trans {a b c : Engine} (h : SameText a b) (k : SameText b c) : SameText a c :=
  ⟨k.config.trans h.config, k.input.trans h.input⟩

theorem rested_sameText (e : Engine) : SameText e e.rested := by
  unfold rested
  split <;> exact ⟨rfl, rfl⟩

theorem undone_sameText (e : Engine) : SameText e e.undone := by
  unfold undone
  split
  · exact ⟨rfl, rfl⟩
  · exact (SameText.mk rfl rfl : SameText e { e with toMark := e.anchor, lexeme := [] }).trans
      (rested_sameText _)

theorem recognizedNow_sameText (e : Engine) : SameText e e.recognizedNow := by
  unfold recognizedNow
  split <;> exact ⟨rfl, rfl⟩

theorem failedNow_sameText (e : Engine) : SameText e e.failedNow := by
  unfold failedNow
  split <;> exact ⟨rfl, rfl⟩

theorem LaidOut.sameText {e e' : Engine} {o : Option Outcome} (h : LaidOut e o e') :
    SameText e e' := by
  have ho : SameText e e.opened := ⟨by simp [opened], by simp [opened]⟩
  have hn : SameText e e.opened.skipNoise := ho.trans ⟨by simp, by simp⟩
  cases h with
  | indentation => exact ho.trans ⟨rfl, rfl⟩
  | endOfStream => exact hn.trans ⟨rfl, rfl⟩
  | lineEnd => exact hn.trans ⟨by simp, by simp⟩
  | body => exact hn

theorem scanLayout_sameText (e : Engine) : SameText e (Program.final (scanLayout e)) := by
  by_cases hs : e.Scannable
  · obtain ⟨o, e', h⟩ := scanLayout_total hs
    rw [h]
    exact (scanLayout_eq_ok_iff.mp h).2.sameText
  · obtain ⟨fault, -, h⟩ := scanLayout_refuses hs
    rw [h]
    exact ⟨rfl, rfl⟩

theorem Scanned.sameText {p : Pattern} {e e' : Engine} {o : Option Outcome}
    (h : Scanned p e o e') : SameText e e' := by
  cases h with
  | layout hl => exact hl.sameText
  | miss hl => exact hl.sameText
  | token hl => exact hl.sameText.trans ⟨by simp [tokenTaken], by simp [tokenTaken]⟩

theorem CharRead.sameText {e e' : Engine} {c : Option Char} (h : CharRead e c e') :
    SameText e e' := by
  have hr : SameText e e.released := ⟨by simp, by simp⟩
  cases h <;> exact hr.trans ⟨rfl, rfl⟩

theorem scan_sameText (p : Pattern) (e : Engine) : SameText e (Program.final (scan p e)) := by
  have h := scan_left p e
  generalize Program.final (scan p e) = e' at h
  cases h with
  | refused => exact ⟨rfl, rfl⟩
  | scanned _ h => exact h.sameText
  | brokenOff _ h => exact h.sameText.trans ⟨by simp, by simp⟩

theorem nextChar_sameText (e : Engine) : SameText e (Program.final (nextChar e)) := by
  have h := nextChar_left e
  generalize Program.final (nextChar e) = e' at h
  cases h with
  | refused => exact ⟨rfl, rfl⟩
  | read _ h => exact h.sameText
  | brokenOff =>
    have hr : SameText e e.released := ⟨by simp, by simp⟩
    exact hr.trans ⟨rfl, rfl⟩

end TableLexer.Engine
