import TableLexer.Proofs.Engine.Operations
import TableLexer.Proofs.Lexer.Steps
import TableLexer.Proofs.Programs

/-!
# What rules leave alone

No step of a rule changes the text, the layout patterns, the ruleset, the options, the
registered operations or the transforms.
-/
namespace TableLexer

namespace Lexer

open Program (Relates)

/-- The two lexers differ at most in how far they have come. -/
structure SameFrame (l l' : Lexer) : Prop where
  text : l.engine.SameText l'.engine
  ruleset : l'.ruleset = l.ruleset
  options : l'.options = l.options
  operations : l'.operations = l.operations
  transforms : l'.queue.transforms = l.queue.transforms

theorem SameFrame.refl (l : Lexer) : SameFrame l l := ⟨⟨rfl, rfl⟩, rfl, rfl, rfl, rfl⟩

theorem SameFrame.trans {a b c : Lexer} (h : SameFrame a b) (k : SameFrame b c) :
    SameFrame a c :=
  ⟨h.text.trans k.text, k.ruleset.trans h.ruleset, k.options.trans h.options,
    k.operations.trans h.operations, k.transforms.trans h.transforms⟩

variable {α β : Type}

theorem scanToken_eq (p : Pattern) (l : Lexer) :
    scanToken p l = match Engine.scan p l.engine with
      | .ok o e => .ok (decide (o = some .token)) { l with engine := e }
      | .error fault e => .error (.fault fault) { l with engine := e } := by
  simp only [scanToken, Program.bind_apply, onEngine]
  cases Engine.scan p l.engine <;> rfl

theorem scanToken_eq_ok {p : Pattern} {found : Bool} {l l' : Lexer}
    (h : scanToken p l = .ok found l') :
    ∃ o, Engine.scan p l.engine = .ok o l'.engine ∧ (found = true ↔ o = some .token) := by
  rw [scanToken_eq] at h
  cases hs : Engine.scan p l.engine with
  | error fault e => simp [hs] at h
  | ok o e =>
    simp only [hs, EStateM.Result.ok.injEq] at h
    obtain ⟨rfl, rfl⟩ := h
    exact ⟨o, rfl, by simp⟩

/-- Queueing a token completes it, takes its lexeme and counts it. -/
theorem enqueueToken_eq (type : TokenType) (l : Lexer) :
    enqueueToken type l =
      if l.engine.recognition.isTerminal then .ok none l
      else
        let engine := l.engine.recognizedNow
        match l.queue.enqueue (.token type (.ofLexeme engine.lexemeText engine.lexemePosition)) with
        | .ok (reply, queue) =>
          .ok reply { l with
            engine := engine.clearLexeme, queue, stats := l.stats.recordQueued reply.isSome }
        | .error e => .error (.fault e) { l with engine := engine.clearLexeme } := by
  unfold enqueueToken
  simp only [Program.bind_apply, Program.get_apply]
  split
  · rfl
  · simp only [Program.bind_apply, onEngine, Engine.markRecognized_eq, Program.get_apply,
      Engine.takeToken, Program.modify_apply, onQueue_enqueue, modifyStats]
    cases l.queue.enqueue _ with
    | ok r => rfl
    | error e => rfl

theorem enqueueToken_accepted {type : TokenType} {l : Lexer}
    (hr : l.engine.recognition = .recognized) {reply : Option Entry} {queue : Queue}
    (hq : l.queue.enqueue (.token type
      (.ofLexeme l.engine.lexemeText l.engine.lexemePosition)) = .ok (reply, queue)) :
    enqueueToken type l = .ok reply { l with
      engine := l.engine.clearLexeme, queue, stats := l.stats.recordQueued reply.isSome } := by
  have hnow : l.engine.recognizedNow = l.engine := by
    simp [Engine.recognizedNow, Engine.Unclaimed, hr]
  simp [enqueueToken_eq, hr, RecognitionState.isTerminal, hnow, hq]

/-- The report of an unknown token takes a character first if the lexeme is empty. -/
theorem unknownToken_eq (l : Lexer) :
    unknownToken l =
      let report (e : Engine) : EStateM.Result Stop Lexer Reply :=
        .error (.fault (.located (.unknownToken e.lexemeText) e.lexemePosition))
          { l with engine := e.failedNow }
      match l.engine.recognition with
      | .done => .ok none l
      | .aborted =>
        .error (.fault (.located (.prematureEndAfter l.engine.lexemeText)
          l.engine.lexemePosition)) l
      | _ =>
        if l.engine.lexeme.isEmpty then
          match Engine.nextChar l.engine with
          | .ok none e => .ok none { l with engine := e }
          | .ok (some _) e => report e
          | .error fault e => .error (.fault fault) { l with engine := e }
        else report l.engine := by
  unfold unknownToken
  simp only [Program.bind_apply, Program.get_apply]
  cases l.engine.recognition with
  | done => rfl
  | aborted => rfl
  | waitingForInput | ready | tokenizing | recognized | failed =>
    dsimp only
    cases l.engine.lexeme.isEmpty with
    | false => simp [onEngine, Engine.markFailed_eq, fail]
    | true =>
      simp only [↓reduceIte, Program.bind_apply, onEngine]
      cases Engine.nextChar l.engine with
      | error fault e => rfl
      | ok c e => cases c <;> simp [onEngine, Engine.markFailed_eq, fail]

theorem pure_frame (a : α) : Relates SameFrame (pure a : LexerM α) := fun l => .refl l

theorem fail_frame (e : LexError) : Relates SameFrame (fail e : LexerM α) := fun l => .refl l

theorem bind_frame {m : LexerM α} {f : α → LexerM β} (hm : Relates SameFrame m)
    (hf : ∀ a, Relates SameFrame (f a)) : Relates SameFrame (m >>= f) :=
  Relates.bind (R := SameFrame) (fun _ _ _ => SameFrame.trans) hm hf

theorem answered_frame {m : LexerM α} (hm : Relates SameFrame m) (b : β) :
    Relates SameFrame (m >>= fun _ => pure b) := by
  apply bind_frame hm
  intro _
  exact pure_frame b

theorem get_frame {f : Lexer → LexerM α} (hf : ∀ l, Relates SameFrame (f l)) :
    Relates SameFrame (get >>= f) := by
  refine bind_frame ?_ hf
  intro l
  exact .refl l

theorem onEngine_frame {m : EngineM α} (hm : Relates Engine.SameText m) :
    Relates SameFrame (onEngine m) := by
  intro l
  have h := hm l.engine
  unfold onEngine
  cases hr : m l.engine with
  | ok a e => exact ⟨by simpa [hr] using h, rfl, rfl, rfl, rfl⟩
  | error fault e => exact ⟨by simpa [hr] using h, rfl, rfl, rfl, rfl⟩

theorem modifyEngine_frame {f : Engine → Engine} (hf : ∀ e : Engine, e.SameText (f e)) :
    Relates SameFrame (modifyEngine f) := fun l => ⟨hf l.engine, rfl, rfl, rfl, rfl⟩

theorem modifyStats_frame (f : Stats → Stats) : Relates SameFrame (modifyStats f) :=
  fun _ => ⟨⟨rfl, rfl⟩, rfl, rfl, rfl, rfl⟩

theorem nextChar_frame : Relates SameFrame (onEngine Engine.nextChar) :=
  onEngine_frame Engine.nextChar_sameText

theorem scanToken_frame (p : Pattern) : Relates SameFrame (scanToken p) :=
  bind_frame (onEngine_frame (Engine.scan_sameText p)) fun _ => pure_frame _

theorem undoScan_frame : Relates SameFrame (onEngine Engine.undoScan) := by
  apply onEngine_frame
  intro e
  simpa [Engine.undoScan_eq] using Engine.undone_sameText e

theorem enqueueToken_frame (type : TokenType) : Relates SameFrame (enqueueToken type) := by
  intro l
  have he := Engine.recognizedNow_sameText l.engine
  rw [enqueueToken_eq]
  split
  · exact .refl l
  · dsimp only
    split
    · next h => exact ⟨⟨he.config, he.input⟩, rfl, rfl, rfl, Queue.enqueue_transforms h⟩
    · exact ⟨⟨he.config, he.input⟩, rfl, rfl, rfl, rfl⟩

theorem unknownToken_frame : Relates SameFrame unknownToken := by
  intro l
  have hf : ∀ e : Engine, l.engine.SameText e → SameFrame l { l with engine := e.failedNow } := by
    intro e he
    exact ⟨he.trans (Engine.failedNow_sameText e), rfl, rfl, rfl, rfl⟩
  have hn := Engine.nextChar_sameText l.engine
  rw [unknownToken_eq]
  dsimp only
  split
  · exact .refl l
  · exact .refl l
  · split
    · split
      · next h => exact ⟨by simpa [h] using hn, rfl, rfl, rfl, rfl⟩
      · next h => exact hf _ (by simpa [h] using hn)
      · next h => exact ⟨by simpa [h] using hn, rfl, rfl, rfl, rfl⟩
    · exact hf _ ⟨rfl, rfl⟩

theorem retypeLast_frame (old new : TokenType) : Relates SameFrame (retypeLast old new) := by
  refine bind_frame ?_ fun _ => get_frame fun _ => pure_frame _
  intro l
  exact ⟨⟨rfl, rfl⟩, rfl, rfl, rfl, Queue.mapLast_transforms _ _⟩

theorem modifyModes_frame (f : Lexer → Modes) :
    Relates SameFrame (modify fun l => { l with modes := f l } : LexerM Unit) :=
  fun _ => ⟨⟨rfl, rfl⟩, rfl, rfl, rfl, rfl⟩

theorem checkMode_frame (mode : String) : Relates SameFrame (checkMode mode) := by
  apply get_frame
  intro l
  split
  · exact fail_frame _
  · exact pure_frame _

theorem modeArgument_frame (message : String) (args : List Value) :
    Relates SameFrame (modeArgument message args) := by
  unfold modeArgument
  split
  · exact pure_frame _
  · exact fail_frame _

theorem popMode_frame : Relates SameFrame popMode := by
  apply get_frame
  intro l
  split
  · exact modifyModes_frame _
  · exact fail_frame _

theorem restoreSnapshot_frame : Relates SameFrame (onEngine Engine.restoreSnapshot) := by
  apply onEngine_frame
  intro e
  unfold Engine.restoreSnapshot
  split <;> exact ⟨rfl, rfl⟩

theorem changeMode_frame (mode : String) (f : Lexer → Modes) :
    Relates SameFrame
      (do checkMode mode; modify fun l => { l with modes := f l } : LexerM Unit) := by
  apply bind_frame (checkMode_frame mode)
  intro _
  exact modifyModes_frame f

theorem builtIn_frame (message : String) (args : List Value) :
    Relates SameFrame (builtIn message args) := by
  unfold builtIn
  split
  · exact unknownToken_frame
  · exact answered_frame nextChar_frame none
  · apply answered_frame
    exact modifyEngine_frame fun _ => ⟨rfl, rfl⟩
  · exact answered_frame undoScan_frame none
  · apply answered_frame
    exact modifyEngine_frame fun _ => ⟨rfl, rfl⟩
  · exact answered_frame restoreSnapshot_frame none
  · apply answered_frame
    exact modifyEngine_frame fun _ => ⟨rfl, rfl⟩
  · apply bind_frame (modeArgument_frame _ _)
    intro mode
    exact answered_frame (changeMode_frame mode _) none
  · apply bind_frame (modeArgument_frame _ _)
    intro mode
    exact answered_frame (changeMode_frame mode _) none
  · exact answered_frame popMode_frame none
  · exact fail_frame _

theorem Step.run_frame (s : Step) : Relates SameFrame s.run := by
  cases s with
  | nextChar => exact answered_frame nextChar_frame ()
  | scan p => exact answered_frame (scanToken_frame p) ()
  | enqueue type => exact answered_frame (enqueueToken_frame type) ()
  | unknownToken => exact answered_frame unknownToken_frame ()
  | putBack => exact undoScan_frame
  | clear => exact modifyEngine_frame fun _ => ⟨rfl, rfl⟩
  | retype old new => exact answered_frame (retypeLast_frame old new) ()
  | message name args => exact answered_frame (builtIn_frame name args) ()
  | halt stop =>
    intro l
    exact .refl l

theorem perform_frame (steps : List Step) : Relates SameFrame (perform steps) := by
  induction steps with
  | nil => exact pure_frame ()
  | cons s rest ih =>
    apply bind_frame s.run_frame
    intro _
    exact ih

end Lexer
end TableLexer
