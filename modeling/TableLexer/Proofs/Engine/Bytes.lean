import TableLexer.Engine.Bytes
import TableLexer.Proofs.BytePlaces
import TableLexer.Proofs.LineCounting

/-!
# The engine in bytes follows the engine in places

A mark in bytes stands for a place if the place is in the text. As long as all marks of an engine
fit the text, every operation in bytes does what the operation in places does and leads to the same
engine with its marks in bytes, so it never panics. Every mark and every position of an engine that
commands in bytes lead to is a valid one.
-/
namespace TableLexer

def Mark.bytes (text : List Char) (m : Mark) : Mark :=
  { m with pos := Text.bytesBefore text m.pos, lineStart := Text.bytesBefore text m.lineStart }

def Scan.bytes (text : List Char) (s : Scan) : Scan :=
  { s with toMark := s.toMark.bytes text, anchor := s.anchor.bytes text }

def Engine.bytes (e : Engine) : Engine :=
  { e with toScan := e.toScan.bytes e.input, snapshots := e.snapshots.map (Scan.bytes e.input) }

namespace ByteEngine

open Engine (Command)
open Text (bytesBefore byteLength slice)

variable {α β : Type} {e : Engine} {n : Nat}

@[simp] theorem bytes_config (e : Engine) : e.bytes.config = e.config := rfl
@[simp] theorem bytes_input (e : Engine) : e.bytes.input = e.input := rfl
@[simp] theorem bytes_lexeme (e : Engine) : e.bytes.lexeme = e.lexeme := rfl
@[simp] theorem bytes_lineState (e : Engine) : e.bytes.lineState = e.lineState := rfl
@[simp] theorem bytes_recognition (e : Engine) : e.bytes.recognition = e.recognition := rfl
@[simp] theorem bytes_pos (e : Engine) : e.bytes.pos = bytesBefore e.input e.pos := rfl
@[simp] theorem bytes_toMark (e : Engine) : e.bytes.toMark = e.toMark.bytes e.input := rfl
@[simp] theorem bytes_anchor (e : Engine) : e.bytes.anchor = e.anchor.bytes e.input := rfl

def inBytes : EStateM.Result LexError Engine α → EStateM.Result Fault Engine α
  | .ok a e => .ok a e.bytes
  | .error fault e => .error (.refused fault) e.bytes

/-- Started in `e`, the program on bytes does what the program on places does. -/
def Follows (m' : ByteEngineM α) (m : EngineM α) (e : Engine) : Prop := m' e.bytes = inBytes (m e)

theorem Follows.pure (a : α) (e : Engine) : Follows (Pure.pure a) (Pure.pure a) e := rfl

theorem Follows.throw (fault : LexError) (e : Engine) :
    Follows (throw (.refused fault) : ByteEngineM α) (throw fault) e := rfl

theorem Follows.bind {m' : ByteEngineM α} {m : EngineM α} {f' : α → ByteEngineM β}
    {f : α → EngineM β} (hm : Follows m' m e)
    (hf : ∀ a e₁, m e = .ok a e₁ → Follows (f' a) (f a) e₁) : Follows (m' >>= f') (m >>= f) e := by
  unfold Follows at *
  rw [Program.bind_apply, Program.bind_apply, hm]
  cases hr : m e with
  | ok a e₁ => exact hf a e₁ hr
  | error fault e₁ => rfl

/-- Programs that both succeed may tell different things. -/
theorem Follows.both {γ : Type} {m' : ByteEngineM γ} {m : EngineM α} {f' : γ → ByteEngineM β}
    {f : α → EngineM β} {a : α} {c : γ} {e₁ : Engine} (hm' : m' e.bytes = .ok c e₁.bytes)
    (hm : m e = .ok a e₁) (hf : Follows (f' c) (f a) e₁) : Follows (m' >>= f') (m >>= f) e := by
  unfold Follows at *
  rw [Program.bind_apply, Program.bind_apply, hm', hm]
  exact hf

theorem Follows.look {γ : Type} {m' : ByteEngineM γ} {f' : γ → ByteEngineM β} {m : EngineM β}
    {c : γ} (hm' : m' e.bytes = .ok c e.bytes) (hf : Follows (f' c) m e) :
    Follows (m' >>= f') m e := by
  unfold Follows at *
  rw [Program.bind_apply, hm']
  exact hf

theorem Follows.get {f' : Engine → ByteEngineM β} {f : Engine → EngineM β}
    (h : Follows (f' e.bytes) (f e) e) : Follows (get >>= f') (get >>= f) e := h

theorem Follows.set {e₁ e₁' : Engine} (h : e₁' = e₁.bytes) :
    Follows (MonadStateOf.set e₁') (MonadStateOf.set e₁) e := by
  subst h
  rfl

theorem Follows.ite {c c' : Prop} [Decidable c] [Decidable c'] {m₁' m₂' : ByteEngineM α}
    {m₁ m₂ : EngineM α} (hc : c' ↔ c) (h₁ : c → Follows m₁' m₁ e) (h₂ : ¬ c → Follows m₂' m₂ e) :
    Follows (if c' then m₁' else m₂') (if c then m₁ else m₂) e := by
  by_cases h : c
  · rw [if_pos h, if_pos (hc.mpr h)]
    exact h₁ h
  · rw [if_neg h, if_neg (fun h' => h (hc.mp h'))]
    exact h₂ h

theorem length_slice (text : List Char) {i j : Nat} (hj : j ≤ text.length) :
    (slice text i j).length = j - i := by
  rw [slice, List.length_drop, List.length_take, Nat.min_eq_left hj]

/-- Where a mark fits the text, its characters are counted and the assertion holds. -/
theorem locate_fits {m : Mark} (h : m.Fits e.input) :
    locate (m.bytes e.input) e.bytes = .ok m.position e.bytes := by
  have hstart : Text.sliceBytes? e.input 0 (bytesBefore e.input m.pos) =
      some (slice e.input 0 m.pos) := by
    rw [← Text.bytesBefore_zero e.input]
    exact Text.sliceBytes?_places (Nat.zero_le _) h.within
  have hline : min (bytesBefore e.input m.lineStart) (bytesBefore e.input m.pos) =
      bytesBefore e.input m.lineStart :=
    Nat.min_eq_left (Text.bytesBefore_mono e.input h.ordered)
  simp only [locate, Program.bind_apply, Program.get_apply, Mark.bytes, bytes_input, hstart, hline,
    Text.sliceBytes?_places h.ordered h.within, Option.getD_some, length_slice e.input h.within,
    Nat.sub_zero]
  exact congrFun (if_pos h.consistent) e.bytes

theorem currentPosition_fits (h : e.toMark.Fits e.input) :
    currentPosition e.bytes = .ok e.currentPosition e.bytes := locate_fits h

theorem lexemePosition_fits (h : e.toMark.Fits e.input) (ha : e.anchor.Fits e.input) :
    lexemePosition e.bytes = .ok e.lexemePosition e.bytes := by
  change (if e.lexeme.isEmpty then currentPosition else locate (e.anchor.bytes e.input)) e.bytes = _
  unfold Engine.lexemePosition
  split
  · exact currentPosition_fits h
  · exact locate_fits ha

theorem refuseHere_fits (h : e.toMark.Fits e.input) (cause : Cause) :
    refuseHere cause e.bytes = .error (.refused (.located cause e.currentPosition)) e.bytes := by
  simp only [refuseHere, Program.bind_apply, currentPosition_fits h, Program.throw_apply]

def width (e : Engine) (n : Nat) : Nat := byteLength (e.upcoming n)

theorem bytesBefore_upcoming (e : Engine) (n : Nat) :
    bytesBefore e.input (e.pos + n) = bytesBefore e.input e.pos + width e n :=
  Text.bytesBefore_add e.input e.pos n

theorem advance_bytes (e : Engine) (n : Nat) :
    e.bytes.advance (width e n) = (e.advance n).bytes := by
  have hpos : e.bytes.pos + width e n = (e.advance n).bytes.pos :=
    (bytesBefore_upcoming e n).symm
  rw [Engine.advance, hpos]
  rfl

theorem pushLexeme_bytes (e : Engine) (anchor : Mark) (text : List Char) :
    e.bytes.pushLexeme (anchor.bytes e.input) text = (e.pushLexeme anchor text).bytes := by
  unfold Engine.pushLexeme
  rw [bytes_lexeme]
  cases e.lexeme.isEmpty <;> rfl

theorem sliceInput_upcoming (h : e.pos + n ≤ e.input.length) {e' : Engine}
    (hinput : e'.input = e.input) :
    sliceInput (bytesBefore e.input e.pos) (bytesBefore e.input e.pos + width e n) e' =
      .ok (e.upcoming n) e' := by
  simp only [sliceInput, Program.bind_apply, Program.get_apply, hinput, ← bytesBefore_upcoming,
    Text.sliceBytes?_places (Nat.le_add_right _ _) h]
  rfl

theorem separator?_bytes (h : e.pos ≤ e.input.length) :
    separator? e.bytes = e.separator?.map (width e) :=
  Pattern.consumedBytesAt?_place h

theorem indentation?_bytes (h : e.pos ≤ e.input.length) :
    indentation? e.bytes = e.indentation?.map (width e) := by
  unfold indentation? Engine.indentation?
  rw [bytes_lineState, bytes_config]
  split
  · cases e.config.indentation with
    | none => rfl
    | some p => exact Pattern.consumedBytesAt?_place h
  · rfl

theorem foldl_breaks (start : Nat) {within : List Char} (e : Engine) {ends : List Nat}
    (hends : ∀ last ∈ ends, bytesBefore e.input start + bytesBefore within last =
      bytesBefore e.input (start + last)) :
    (ends.map (bytesBefore within)).foldl (fun a last =>
        { a with line := a.line + 1, lineStart := bytesBefore e.input start + last }) e.bytes =
      ({ e with
          line := e.line + ends.length
          lineStart := (ends.getLast?.map (start + ·)).getD e.lineStart } : Engine).bytes := by
  induction ends generalizing e with
  | nil => rfl
  | cons first rest ih =>
    rw [List.forall_mem_cons] at hends
    have hrest := ih { e with line := e.line + 1, lineStart := start + first } hends.2
    rw [List.map_cons, List.foldl_cons]
    have hfirst : ({ e.bytes with
          line := e.bytes.line + 1
          lineStart := bytesBefore e.input start + bytesBefore within first } : Engine) =
        ({ e with line := e.line + 1, lineStart := start + first } : Engine).bytes := by
      rw [hends.1]
      rfl
    rw [hfirst, hrest]
    simp only [List.getLast?_cons, List.length_cons, Nat.add_assoc, Nat.add_comm 1,
      Option.map_some, Option.getD_some]
    cases rest.getLast? <;> rfl

theorem countBreaks_bytes (start : Nat) (h : start + n ≤ e.input.length) :
    countBreaks (bytesBefore e.input start) (slice e.input start (start + n)) e.bytes =
      (e.countBreaks start (slice e.input start (start + n))).bytes := by
  have hends : ∀ last ∈ e.config.eol.matchEnds (slice e.input start (start + n)), last ≤ n := by
    intro last hlast
    rw [← Text.length_slice_add h]
    exact Pattern.matchEnds_within hlast
  have hcount : ∀ text, e.countBreaks start text =
      { e with
        line := e.line + (e.config.eol.matchEnds text).length
        lineStart :=
          ((e.config.eol.matchEnds text).getLast?.map (start + ·)).getD e.lineStart } := by
    intro text
    unfold Engine.countBreaks
    dsimp only
    cases (e.config.eol.matchEnds text).getLast? <;> rfl
  rw [hcount]
  exact foldl_breaks start e fun last hlast => Text.bytesBefore_slice _ _ (hends last hlast)

theorem beginLine_bytes (h : e.pos ≤ e.input.length) :
    beginLine e.bytes = e.beginLine.bytes := by
  unfold beginLine Engine.beginLine
  rw [separator?_bytes h]
  cases hs : e.separator? with
  | none => rfl
  | some n =>
    have hpos : e.bytes.pos + width e n = bytesBefore e.input (e.pos + n) :=
      (bytesBefore_upcoming e n).symm
    simp only [Option.map_some, Option.getD_some, hpos]
    rfl

theorem enterLine_bytes (h : e.pos ≤ e.input.length) (entry : Option LineEntry) :
    enterLine e.bytes entry = (e.enterLine entry).bytes := by
  cases entry with
  | none => rfl
  | some entry =>
    cases entry
    exact beginLine_bytes h

theorem enterRecognition_bytes (e : Engine) (entry : Option RecognitionEntry) :
    e.bytes.enterRecognition entry = (e.enterRecognition entry).bytes := by
  cases entry with
  | none => rfl
  | some entry => cases entry <;> rfl

theorem fireLine_follows (h : e.toMark.Fits e.input) (event : LineEvent) :
    Follows (fireLine event) (Engine.fireLine event) e := by
  simp only [Follows, fireLine, Engine.fireLine, Program.bind_apply, Program.get_apply,
    bytes_lineState]
  cases e.lineState.on event with
  | none => exact refuseHere_fits h _
  | some r =>
    obtain ⟨next, entry⟩ := r
    have hnext := enterLine_bytes (e := { e with lineState := next }) h.within entry
    exact congrArg (EStateM.Result.ok ()) hnext

theorem fireRecognition_follows (h : e.toMark.Fits e.input) (event : RecognitionEvent) :
    Follows (fireRecognition event) (Engine.fireRecognition event) e := by
  simp only [Follows, fireRecognition, Engine.fireRecognition, Program.bind_apply,
    Program.get_apply, bytes_recognition]
  cases e.recognition.on event with
  | none => exact refuseHere_fits h _
  | some r =>
    obtain ⟨next, entry⟩ := r
    have hnext := enterRecognition_bytes { e with recognition := next } entry
    exact congrArg (EStateM.Result.ok ()) hnext

/-- A line event other than the end of a separator leaves the place alone. -/
theorem fireLine_keeps {e₁ : Engine} {event : LineEvent}
    (h : Engine.fireLine event e = .ok () e₁) (hevent : event ≠ .afterEol) :
    ∃ lineState, e₁ = { e with lineState } := by
  unfold Engine.fireLine at h
  cases hs : e.lineState <;> cases event <;> simp_all [LineState.on, Engine.enterLine] <;>
    exact ⟨_, h.symm⟩

theorem fireLine_input {e₁ : Engine} {event : LineEvent}
    (h : Engine.fireLine event e = .ok () e₁) : e₁.input = e.input := by
  unfold Engine.fireLine at h
  cases hs : e.lineState <;> cases event <;> simp_all [LineState.on, Engine.enterLine] <;>
    exact (congrArg Engine.input h).symm.trans rfl

theorem fireLine_fits {e₁ : Engine} {event : LineEvent} (hfits : e.toMark.Fits e.input)
    (h : Engine.fireLine event e = .ok () e₁) (hevent : event ≠ .afterEol) :
    e₁.toMark.Fits e₁.input := by
  obtain ⟨lineState, rfl⟩ := fireLine_keeps h hevent
  exact hfits.turned lineState

theorem fireRecognition_fits {e₁ : Engine} {event : RecognitionEvent}
    (hfits : e.toMark.Fits e.input) (h : Engine.fireRecognition event e = .ok () e₁) :
    e₁.toMark.Fits e₁.input := by
  unfold Engine.fireRecognition at h
  cases hr : e.recognition.on event with
  | none => simp [hr] at h
  | some r =>
    obtain ⟨next, entry⟩ := r
    simp only [hr, EStateM.Result.ok.injEq, true_and] at h
    subst h
    cases entry with
    | none => exact hfits
    | some entry =>
      cases entry with
      | clearLexeme => exact hfits
      | reset => exact Mark.origin_fits _

theorem refuseHere_follows (h : e.toMark.Fits e.input) (cause : Cause) :
    Follows (refuseHere cause) (throw (.located cause e.currentPosition)) e :=
  refuseHere_fits h cause

theorem ensureScannable_follows (h : e.toMark.Fits e.input) :
    Follows ensureScannable Engine.ensureScannable e := by
  refine Follows.get (.ite Iff.rfl (fun _ => .bind (.throw _ e) fun _ _ => nofun) fun _ => ?_)
  exact .ite Iff.rfl (fun _ => refuseHere_follows h _) fun _ => .pure () e

theorem releaseToken_follows (h : e.toMark.Fits e.input) :
    Follows releaseToken Engine.releaseToken e :=
  Follows.get (.ite Iff.rfl (fun _ => fireRecognition_follows h _) fun _ => .pure () e)

/-- Where scanning is allowed it goes on after letting go of a token. -/
theorem Follows.scannable {m' : ByteEngineM α} {m : EngineM α} (h : e.toMark.Fits e.input)
    (hm : e.Scannable → e.released.toMark.Fits e.released.input → Follows m' m e.released) :
    Follows (do ensureScannable; releaseToken; m')
      (do Engine.ensureScannable; Engine.releaseToken; m) e := by
  refine .bind (ensureScannable_follows h) fun _ e₁ h₁ => ?_
  by_cases hs : e.Scannable
  · rw [Engine.ensureScannable_eq hs] at h₁
    cases h₁
    refine .bind (releaseToken_follows h) fun _ e₂ h₂ => ?_
    rw [Engine.releaseToken_eq] at h₂
    cases h₂
    exact hm hs (by simpa using h)
  · obtain ⟨fault, -, hf⟩ := Engine.ensureScannable_refuses hs
    rw [hf] at h₁
    cases h₁

theorem expected_follows (h : e.toMark.Fits e.input) (a : α) :
    Follows
      (do fireLine .expectedCharChecked
          fireRecognition .expectedCharChecked
          return a)
      (do Engine.fireLine .expectedCharChecked
          Engine.fireRecognition .expectedCharChecked
          return a) e := by
  refine .bind (fireLine_follows h _) fun _ e₁ h₁ => ?_
  have hfits := fireLine_fits h h₁ (by decide)
  exact .bind (fireRecognition_follows hfits _) fun _ e₂ _ => .pure a e₂

theorem leaveLine_follows (h : e.toMark.Fits e.input) :
    Follows leaveLine Engine.leaveLine e :=
  Follows.get (.ite Iff.rfl (fun _ => fireLine_follows h _) fun _ => .pure () e)

theorem takeBytes_upcoming (h : e.pos + n ≤ e.input.length) :
    takeBytes (width e n) e.bytes = .ok (e.upcoming n) (e.takeChars n).bytes := by
  have hslice : sliceInput e.bytes.pos (e.bytes.pos + width e n) (e.advance n).bytes =
      .ok (e.upcoming n) (e.advance n).bytes := sliceInput_upcoming h rfl
  have hpush : (e.advance n).bytes.pushLexeme e.bytes.toMark (e.upcoming n) =
      (e.takeChars n).bytes := pushLexeme_bytes (e.advance n) e.toMark (e.upcoming n)
  simp only [takeBytes, Program.bind_apply, Program.get_apply, Program.set_apply, advance_bytes,
    hslice, Program.modify_apply, hpush, Program.pure_apply]

theorem takeIndentation_follows (h : e.toMark.Fits e.input) :
    Follows takeIndentation Engine.takeIndentation e := by
  apply Follows.get
  rw [indentation?_bytes h.within]
  cases hi : e.indentation? with
  | none => exact .pure false e
  | some n =>
    have hin := (Engine.indentation?_eq_some hi).2.2
    have hfits : (e.takeChars n).toMark.Fits e.input := h.advanced hin
    refine .both (takeBytes_upcoming hin) rfl (.bind (fireLine_follows hfits _) fun _ e₁ h₁ => ?_)
    have hfits₁ := fireLine_fits hfits h₁ (by decide)
    exact .bind (fireRecognition_follows hfits₁ _) fun _ e₂ _ => .pure true e₂

theorem skipNoise_bytes (h : e.pos ≤ e.input.length) :
    skipNoise e.bytes = .ok () e.skipNoise.bytes := by
  have hnoise : e.bytes.config.noise.consumedBytesAt? e.bytes.input e.bytes.pos =
      (e.config.noise.consumedAt? e.input e.pos).map (width e) := Pattern.consumedBytesAt?_place h
  unfold skipNoise Engine.skipNoise
  rw [Program.bind_apply, Program.get_apply]
  dsimp only
  rw [hnoise]
  cases hn : e.config.noise.consumedAt? e.input e.pos with
  | none => rfl
  | some n =>
    have hin := (Pattern.consumedAt?_within hn).2
    have hslice : sliceInput e.bytes.pos (e.bytes.pos + width e n) (e.advance n).bytes =
        .ok (e.upcoming n) (e.advance n).bytes := sliceInput_upcoming hin rfl
    simp only [Option.map_some, Program.bind_apply, Program.set_apply, advance_bytes, hslice]
    split
    · exact congrArg (EStateM.Result.ok ()) (countBreaks_bytes (e := e.advance n) e.pos hin)
    · rfl

theorem showSeparator_bytes (h : e.pos + n ≤ e.input.length) :
    showSeparator (width e n) e.bytes = .ok () (e.showSeparator n).bytes := by
  have hslice : sliceInput e.bytes.pos (e.bytes.pos + width e n) e.bytes =
      .ok (e.upcoming n) e.bytes := sliceInput_upcoming h rfl
  simp only [showSeparator, Program.bind_apply, Program.get_apply, hslice, Program.set_apply]
  exact congrArg (EStateM.Result.ok ()) (pushLexeme_bytes e.clearLexeme e.toMark (e.upcoming n))

theorem reportEnd_follows (h : e.toMark.Fits e.input) :
    Follows reportEnd Engine.reportEnd e := by
  have hend : byteLength e.bytes.input ≤ e.bytes.pos ↔ e.atEnd = true := by
    rw [Engine.atEnd, decide_eq_true_iff]
    exact Text.byteLength_le_bytesBefore_iff h.within
  refine Follows.get (.ite hend (fun _ => ?_) fun _ => ?_)
  · exact .bind (fireRecognition_follows h _) fun _ e₁ _ => .pure _ e₁
  · rw [separator?_bytes h.within]
    cases hs : e.separator? with
    | none => exact .pure none e
    | some n =>
      have hin := (Pattern.consumedAt?_within hs).2
      refine .bind (fireLine_follows h _) fun _ e₁ h₁ => ?_
      obtain ⟨lineState, rfl⟩ := fireLine_keeps h₁ (by decide)
      refine Follows.get (.ite Iff.rfl (fun _ => ?_) fun _ => .pure _ _)
      exact .both (showSeparator_bytes hin) rfl (.pure _ _)

/-- What a mark that is firm at the start of a layout step is like behind it. -/
theorem opened_firm (ha : e.config.Apart) (h : e.toMark.Firm e.config e.input) :
    e.opened.toMark.Firm e.opened.config e.opened.input := by
  rw [(Engine.opened_text e).1, (Engine.opened_text e).2]
  exact Engine.opened_mark (Mark.firm_stable ha e.input fun _ => True) h

theorem skipNoise_firm (ha : e.config.Apart) (h : e.toMark.Firm e.config e.input) :
    e.skipNoise.toMark.Firm e.skipNoise.config e.skipNoise.input := by
  rw [(Engine.skipNoise_text e).1, (Engine.skipNoise_text e).2.1]
  exact Engine.noise_mark (Mark.firm_stable ha e.input fun _ => True) h

theorem body_firm (ha : e.config.Apart) (h : e.toMark.Firm e.config e.input) :
    e.opened.skipNoise.toMark.Firm e.opened.skipNoise.config e.opened.skipNoise.input := by
  refine skipNoise_firm ?_ (opened_firm ha h)
  rw [(Engine.opened_text e).1]
  exact ha

theorem scanLayout_follows (ha : e.config.Apart) (h : e.toMark.Firm e.config e.input) :
    Follows scanLayout Engine.scanLayout e := by
  have hopened := opened_firm ha h
  refine .scannable h.2 fun hs hreleased => .bind (leaveLine_follows hreleased) fun _ e₁ h₁ => ?_
  rw [Engine.leaveLine_eq] at h₁
  cases h₁
  refine .bind (takeIndentation_follows hopened.2) fun found e₂ h₂ => ?_
  rw [show e.released.lineBegun = e.opened from rfl,
    Engine.takeIndentation_eq (Engine.opened_unclaimed hs)] at h₂
  cases hi : e.opened.indentation? with
  | some n =>
    rw [hi] at h₂
    cases h₂
    exact .pure _ _
  | none =>
    rw [hi] at h₂
    cases h₂
    exact .both (skipNoise_bytes hopened.2.within) rfl (reportEnd_follows (body_firm ha h).2)

theorem takeMatch_bytes (p : Pattern) (h : e.pos + n ≤ e.input.length) :
    takeMatch p (width e n) e.bytes = .ok () (e.takeMatch p n).bytes := by
  simp only [takeMatch, Engine.takeMatch, Program.bind_apply, Program.get_apply,
    takeBytes_upcoming h]
  split
  · exact congrArg (EStateM.Result.ok ()) (countBreaks_bytes (e := e.takeChars n) e.pos h)
  · rfl

theorem tryPattern_follows (p : Pattern) (h : e.toMark.Fits e.input) :
    Follows (tryPattern p) (Engine.tryPattern p) e := by
  apply Follows.get
  have hmatch : p.matchBytesAt? e.bytes.input e.bytes.pos =
      (p.matchAt? e.input e.pos).map (width e) := Pattern.matchBytesAt?_place h.within
  rw [hmatch]
  cases hm : p.matchAt? e.input e.pos with
  | none => exact .pure none e
  | some n =>
    have hin := Pattern.matchAt?_within hm
    have hfits : (e.takeMatch p n).toMark.Fits (e.takeMatch p n).input := by
      rw [(Engine.takeMatch_text p n e).2.1, Engine.takeMatch_mark]
      exact h.passed hin _ _
    refine .both (takeMatch_bytes p hin) rfl (.bind (fireLine_follows hfits _) fun _ e₁ h₁ => ?_)
    have hfits₁ := fireLine_fits hfits h₁ (by decide)
    refine .bind (fireRecognition_follows hfits₁ _) fun _ e₂ h₂ => ?_
    have hfits₂ := fireRecognition_fits hfits₁ h₂
    exact .bind (fireRecognition_follows hfits₂ _) fun _ e₃ _ => .pure _ e₃

theorem scan_follows (ha : e.config.Apart) (h : e.toMark.Firm e.config e.input) (p : Pattern) :
    Follows (scan p) (Engine.scan p) e := by
  refine .bind (scanLayout_follows ha h) fun found e₁ h₁ => ?_
  cases found with
  | some outcome => exact .pure _ e₁
  | none =>
    cases (Engine.scanLayout_eq_ok_iff.mp h₁).2
    exact tryPattern_follows p (body_firm ha h).2

theorem endLine_follows (h : e.toMark.Fits e.input) (anchor : Mark) (kept text : List Char) :
    Follows
      (do fireLine .afterEol
          modify fun line =>
            { line with lexeme := kept }.pushLexeme (anchor.bytes e.input) text)
      (do Engine.fireLine .afterEol
          modify fun line => { line with lexeme := kept }.pushLexeme anchor text) e := by
  refine .bind (fireLine_follows h _) fun _ e₁ h₁ => ?_
  unfold Follows
  rw [← fireLine_input h₁]
  exact congrArg (EStateM.Result.ok ()) (pushLexeme_bytes { e₁ with lexeme := kept } anchor text)

theorem takeSeparator_follows (h : e.toMark.Fits e.input) (hs : e.separator? = some n) :
    Follows (takeSeparator (width e n)) (Engine.takeSeparator n) e := by
  have hin := (Pattern.consumedAt?_within hs).2
  refine Follows.get (.look (sliceInput_upcoming hin rfl) (.bind (.set rfl) fun _ e₁ h₁ => ?_))
  cases h₁
  refine .ite Iff.rfl (fun _ => .bind ?_ fun _ e₂ h₂ => ?_) fun _ => ?_
  · exact fireLine_follows (e := e.clearLexeme) h _
  · obtain ⟨lineState, rfl⟩ := fireLine_keeps h₂ (by decide)
    exact endLine_follows (e := { e.clearLexeme with lineState }) (h.turned lineState) _ _ _
  · exact endLine_follows (e := e.clearLexeme) h _ _ _

theorem takeChar_bytes {c : Char} (hc : e.input[e.pos]? = some c) :
    takeChar c e.bytes = (e.takeChars 1).bytes := by
  obtain ⟨hlt, hget⟩ := List.getElem?_eq_some_iff.mp hc
  have hnext : e.upcoming 1 = [c] := by
    rw [Engine.upcoming, Text.slice_add, List.drop_eq_getElem_cons hlt, hget]
    rfl
  have hwidth : c.utf8Size = width e 1 := by simp [width, hnext, byteLength]
  have hpush := pushLexeme_bytes (e.advance 1) e.toMark (e.upcoming 1)
  rw [takeChar, hwidth, advance_bytes, ← hnext]
  exact hpush

theorem nextChar_follows (h : e.toMark.Fits e.input) : Follows nextChar Engine.nextChar e := by
  refine .scannable h fun _ hreleased => ?_
  generalize e.released = r at hreleased
  apply Follows.get
  have hchar : Text.charAtByte? r.bytes.input r.bytes.pos = r.input[r.pos]? :=
    Text.charAtByte?_place hreleased.within
  rw [hchar]
  cases hc : r.input[r.pos]? with
  | none => exact .bind (fireRecognition_follows hreleased _) fun _ e₁ _ => .pure none e₁
  | some c =>
    dsimp only
    rw [separator?_bytes hreleased.within]
    cases hsep : r.separator? with
    | some n =>
      refine .bind (takeSeparator_follows hreleased hsep) fun _ e₁ h₁ => expected_follows ?_ _
      rw [Engine.takeSeparator_eq hsep] at h₁
      cases h₁
      have hmoved :=
        hreleased.moved (Mark.Moves.separator hsep : Mark.Moves _ _ (fun _ => True) _ _)
      exact hmoved.turned _
    | none =>
      have hlt := (List.getElem?_eq_some_iff.mp hc).1
      refine .bind (.set (takeChar_bytes hc)) fun _ e₁ h₁ => expected_follows ?_ _
      cases h₁
      exact hreleased.advanced hlt

theorem markRecognized_follows (h : e.toMark.Fits e.input) :
    Follows markRecognized Engine.markRecognized e := by
  have hfire := fireRecognition_follows h .tokenRecognized
  unfold Follows markRecognized Engine.markRecognized
  simp only [Program.bind_apply, Program.get_apply, bytes_recognition]
  cases e.recognition <;> first | exact hfire | rfl

theorem markFailed_follows (h : e.toMark.Fits e.input) :
    Follows markFailed Engine.markFailed e := by
  have hfire := fireRecognition_follows h .unexpectedCharChecked
  unfold Follows markFailed Engine.markFailed
  simp only [Program.bind_apply, Program.get_apply, bytes_recognition]
  cases e.recognition <;> first | exact hfire | rfl

theorem resetRecognition_follows (h : e.toMark.Fits e.input) :
    Follows resetRecognition Engine.resetRecognition e := by
  have hfire := fireRecognition_follows h .recognitionReset
  unfold Follows resetRecognition Engine.resetRecognition
  simp only [Program.bind_apply, Program.get_apply, bytes_recognition]
  cases e.recognition <;> first | exact hfire | rfl

theorem setInput_follows (text : List Char) (e : Engine) :
    Follows (setInput text) (Engine.setInput text) e := by
  unfold Follows
  rw [Engine.setInput_eq]
  cases h : e.recognition <;>
    simp [setInput, h, fireRecognition, RecognitionState.on, Engine.enterRecognition, Engine.reset,
      Engine.restarted, inBytes] <;> rfl

theorem undoScan_follows (ha : e.anchor.Fits e.input) : Follows undoScan Engine.undoScan e := by
  refine Follows.get (.ite Iff.rfl (fun _ => .pure () e) fun _ => ?_)
  refine .bind (.set rfl) fun _ e₁ h₁ => ?_
  cases h₁
  exact resetRecognition_follows (e := { e with toMark := e.anchor, lexeme := [] }) ha

theorem takeToken_follows (h : e.toMark.Fits e.input) (ha : e.anchor.Fits e.input) :
    Follows takeToken (fun e => .ok e.takeToken.1 e.takeToken.2) e := by
  unfold Follows takeToken
  simp only [Program.bind_apply, Program.get_apply, lexemePosition_fits h ha, Program.set_apply]
  rfl

theorem restoreSnapshot_follows (h : e.toMark.Fits e.input) :
    Follows restoreSnapshot Engine.restoreSnapshot e := by
  have hempty := refuseHere_follows h .noSnapshot
  unfold Follows restoreSnapshot Engine.restoreSnapshot
  simp only [Program.bind_apply, Program.get_apply]
  cases hs : e.snapshots with
  | nil =>
    have hnone : e.bytes.snapshots = [] := by rw [Engine.bytes, hs]; rfl
    rw [hnone]
    exact hempty
  | cons saved older =>
    have hsome : e.bytes.snapshots = saved.bytes e.input :: older.map (Scan.bytes e.input) := by
      rw [Engine.bytes, hs]; rfl
    rw [hsome]
    rfl

def left? : EStateM.Result Fault Engine α → Option Engine
  | .ok _ e | .error (.refused _) e => some e
  | .error .panic _ => none

def next? (e : Engine) : Command → Option Engine
  | .setInput text => left? (setInput text e)
  | .scan p => left? (scan p e)
  | .scanLayout => left? (scanLayout e)
  | .nextChar => left? (nextChar e)
  | .undoScan => left? (undoScan e)
  | .clearLexeme => some e.clearLexeme
  | .markRecognized => left? (markRecognized e)
  | .markFailed => left? (markFailed e)
  | .resetRecognition => left? (resetRecognition e)
  | .takeToken => left? (takeToken e)
  | .addSnapshot => some e.addSnapshot
  | .restoreSnapshot => left? (restoreSnapshot e)
  | .popSnapshot => some e.popSnapshot.2

def after? (e : Engine) : List Command → Option Engine
  | [] => some e
  | c :: cs => (next? e c).bind fun e' => after? e' cs

theorem Follows.left {m' : ByteEngineM α} {m : EngineM α} (h : Follows m' m e) :
    left? (m' e.bytes) = some (Program.final (m e)).bytes := by
  rw [h]
  cases m e <;> rfl

/-- A command in bytes does what the command in places does. -/
theorem next?_bytes (ha : e.config.Apart) (h : e.Holds (Mark.Firm e.config e.input)) (c : Command) :
    next? e.bytes c = some (e.next c).bytes := by
  have hfits := h.current.2
  cases c with
  | setInput text => exact (setInput_follows text e).left
  | scan p => exact (scan_follows ha h.current p).left
  | scanLayout => exact (scanLayout_follows ha h.current).left
  | nextChar => exact (nextChar_follows hfits).left
  | undoScan => exact (undoScan_follows h.anchor.2).left
  | markRecognized => exact (markRecognized_follows hfits).left
  | markFailed => exact (markFailed_follows hfits).left
  | resetRecognition => exact (resetRecognition_follows hfits).left
  | takeToken => exact (takeToken_follows hfits h.anchor.2).left
  | restoreSnapshot => exact (restoreSnapshot_follows hfits).left
  | clearLexeme | addSnapshot => rfl
  | popSnapshot =>
    simp only [next?, Engine.next, Engine.popSnapshot, Engine.bytes, List.map_tail]

/-- Commands in bytes never panic, and lead where the commands in places lead. The induction is on
the commands; that all marks are firm goes along. -/
theorem after?_bytes (ha : e.config.Apart) (h : e.Holds (Mark.Firm e.config e.input))
    (commands : List Command) : after? e.bytes commands = some (e.after commands).bytes ∧
      (e.after commands).Holds (Mark.Firm (e.after commands).config (e.after commands).input) := by
  induction commands generalizing e with
  | nil => exact ⟨rfl, h⟩
  | cons c cs ih =>
    rw [after?, next?_bytes ha h, Option.bind_some]
    refine ih ?_ (Engine.next_firm ha h c)
    rw [Engine.next_config]
    exact ha

structure Placed (text : List Char) (m : Mark) : Prop where
  pos : (Text.placeAt? text m.pos).isSome
  lineStart : (Text.placeAt? text m.lineStart).isSome
  ordered : m.lineStart ≤ m.pos

theorem placed_of_fits {text : List Char} {m : Mark} (h : m.Fits text) :
    Placed text (m.bytes text) := by
  have hstart : m.lineStart ≤ text.length := Nat.le_trans h.ordered h.within
  refine ⟨?_, ?_, Text.bytesBefore_mono text h.ordered⟩
  · exact Option.isSome_of_eq_some (Text.placeAt?_bytesBefore text m.pos h.within)
  · exact Option.isSome_of_eq_some (Text.placeAt?_bytesBefore text m.lineStart hstart)

/-- The position is consistent, so it is accepted when it is made from its three numbers. -/
def Valid (p : Position) : Prop :=
  p.Consistent ∧ Position.make p.offset p.line p.column = .ok p

/-- The places of an engine in bytes, which are the scan position, the anchor and those of every
snapshot, and the positions that it hands out. -/
structure Located (e : Engine) : Prop where
  places : e.Holds (Placed e.input)
  current : ∃ p, currentPosition e = .ok p e ∧ Valid p
  lexeme : ∃ p, lexemePosition e = .ok p e ∧ Valid p

theorem valid_of_fits {m : Mark} (h : m.Fits e.input) : Valid m.position :=
  ⟨h.consistent, Position.make_of_consistent h.consistent⟩

theorem located_of_fits (h : e.Holds (Mark.Fits e.input)) : Located e.bytes := by
  refine ⟨⟨placed_of_fits h.current, placed_of_fits h.anchor, ?_⟩, ?_, ?_⟩
  · intro s hs
    obtain ⟨saved, hsaved, rfl⟩ := List.mem_map.mp hs
    exact ⟨placed_of_fits (h.saved saved hsaved).1, placed_of_fits (h.saved saved hsaved).2⟩
  · exact ⟨_, currentPosition_fits h.current, valid_of_fits h.current⟩
  · refine ⟨_, lexemePosition_fits h.current h.anchor, ?_⟩
    unfold Engine.lexemePosition
    split
    · exact valid_of_fits h.current
    · exact valid_of_fits h.anchor

/-- No sequence of commands makes a new engine panic, so no slice is out of range or inside a
character and no assertion fails; and every place of the engine it leads to is a boundary of the
text, and every position it hands out is valid. -/
theorem commands_located {config : EngineConfig} (h : config.Apart) (commands : List Command) :
    ∃ e, after? (Engine.new config) commands = some e ∧ Located e := by
  have hnew : (Engine.new config).Holds
      (Mark.Firm (Engine.new config).config (Engine.new config).input) :=
    Engine.new_holds (P := Mark.Firm config) config (Mark.origin_firm config)
  obtain ⟨hafter, hfirm⟩ := after?_bytes (e := Engine.new config) h hnew commands
  exact ⟨_, hafter, located_of_fits (hfirm.imp fun _ hm => hm.2)⟩

/-- Behind a letter of two bytes, a line break and a snapshot, in the middle of a token. -/
theorem second_line_placed : ∃ e,
    after? (Engine.new {}) [.setInput ['é', '\n', 'b', 'c'], .nextChar, .nextChar, .addSnapshot,
      .nextChar] = some e ∧ (e.pos = 4 ∧ e.lineStart = 3) ∧ Located e := by
  obtain ⟨e, hafter, hlocated⟩ := commands_located EngineConfig.default_apart
    [.setInput ['é', '\n', 'b', 'c'], .nextChar, .nextChar, .addSnapshot, .nextChar]
  refine ⟨e, hafter, ?_, hlocated⟩
  have hplaces : (after? (Engine.new {}) [.setInput ['é', '\n', 'b', 'c'], .nextChar, .nextChar,
      .addSnapshot, .nextChar]).map (fun e => (e.pos, e.lineStart)) = some (4, 3) := by decide
  rw [hafter] at hplaces
  simpa using hplaces

end ByteEngine
end TableLexer
