import TableLexer.Proofs.Lexer.Rules
import TableLexer.Proofs.Programs

/-!
# The parts of a driver step

What the driver queues by itself, how it settles after a rule, and that none of it touches what
the lexer was made of.
-/
namespace TableLexer.Lexer

open Program (Relates)

def endQueued (l : Lexer) : Lexer :=
  { l with queue := { l.queue with
      back := .endOfStream (.endOfStream l.engine.currentPosition) :: l.queue.back } }

def errorQueued (e : LexError) (l : Lexer) : Lexer :=
  { l with
    queue := { l.queue with back := .error e :: l.queue.back }
    stats := { l.stats with errorsCaptured := l.stats.errorsCaptured + 1 } }

theorem endQueued_toList (l : Lexer) :
    l.endQueued.queue.toList =
      l.queue.toList ++ [.endOfStream (.endOfStream l.engine.currentPosition)] := by
  simp [endQueued, Queue.toList]

theorem errorQueued_toList (e : LexError) (l : Lexer) :
    (l.errorQueued e).queue.toList = l.queue.toList ++ [.error e] := by
  simp [errorQueued, Queue.toList]

theorem capture_eq (e : LexError) (l : Lexer) : capture e l = .ok () (l.errorQueued e) := rfl

theorem capturing_eq {α : Type} (m : LexerM α) (l : Lexer) :
    capturing m l = match m l with
      | .ok _ l => .ok false l
      | .error (.fault e) l =>
        if e.kind = .lexical then .ok true (l.errorQueued e) else .error (.fault e) l
      | .error .exhausted l => .error .exhausted l := by
  unfold capturing
  cases m l with
  | ok a l => rfl
  | error stop l =>
    cases stop with
    | exhausted => rfl
    | fault e => by_cases hk : e.kind = .lexical <;> simp [LexError.isRecoverable, hk, capture_eq]

def lineEndToken (l : Lexer) : Entry :=
  .token l.options.eolType (.ofLexeme l.engine.lexemeText l.engine.lexemePosition)

theorem enqueueLineEnd_eq (l : Lexer) :
    enqueueLineEnd l =
      if l.options.eolTokens then
        match l.queue.pushAhead l.lineEndToken with
        | .ok (reply, queue) =>
          .ok () { l with
            queue
            stats :=
              let counted := l.stats.recordQueued reply.isSome
              if reply.isSome then { counted with eolTokens := counted.eolTokens + 1 }
              else counted }
        | .error e => .error (.fault e) l
      else .ok () l := by
  simp only [enqueueLineEnd, Program.bind_apply, Program.get_apply]
  split
  · simp only [Program.bind_apply, onQueue_pushAhead, lineEndToken]
    cases l.queue.pushAhead _ with
    | error e => rfl
    | ok r =>
      obtain ⟨reply, queue⟩ := r
      cases reply <;> rfl
  · rfl

theorem enqueueIndent_eq {l : Lexer} (h : l.engine.recognition = .recognized) :
    enqueueIndent l =
      match l.queue.enqueue (.token l.options.indentType
        (.ofLexeme l.engine.lexemeText l.engine.lexemePosition)) with
      | .ok (reply, queue) =>
        .ok () { l with
          engine := l.engine.clearLexeme
          queue
          stats :=
            let counted := l.stats.recordQueued reply.isSome
            if reply.isSome then { counted with indentTokens := counted.indentTokens + 1 }
            else counted }
      | .error e => .error (.fault e) { l with engine := l.engine.clearLexeme } := by
  have hnow : l.engine.recognizedNow = l.engine := by simp [Engine.recognizedNow,
    Engine.Unclaimed, h]
  simp only [enqueueIndent, Program.bind_apply, Program.get_apply, enqueueToken_eq, h, hnow,
    RecognitionState.isTerminal, Bool.false_eq_true, ↓reduceIte]
  cases l.queue.enqueue _ with
  | error e => rfl
  | ok r =>
    obtain ⟨reply, queue⟩ := r
    cases reply <;> rfl

theorem skipChar_eq (l : Lexer) :
    skipChar l = match Engine.nextChar l.engine with
      | .ok _ e => .ok () { l with engine := e.rested }
      | .error fault e => .error (.fault fault) { l with engine := e } := by
  simp only [skipChar, Program.bind_apply, onEngine]
  cases Engine.nextChar l.engine with
  | error fault e => rfl
  | ok c e => simp [Engine.resetRecognition_eq]

/-- With the complaint about a rule that consumed nothing, unless an error was captured. -/
def complained (complaint : LexError) (captured : Bool) (l : Lexer) : Lexer :=
  if captured then l else l.errorQueued complaint

theorem complained_engine (e : LexError) (captured : Bool) (l : Lexer) :
    (l.complained e captured).engine = l.engine := by
  cases captured <;> rfl

theorem settle_eq (rule : String) (start : Mark) (captured : Bool) (l : Lexer) :
    settle rule start captured l = match l.engine.recognition with
      | .tokenizing | .failed => .ok () { l with engine := l.engine.rested }
      | .done => .ok () l.endQueued
      | .aborted =>
        .ok () (l.complained (.located .prematureEnd l.engine.lexemePosition) captured).endQueued
      | .ready | .recognized =>
        if stalled start l.engine.toMark then
          skipChar (l.complained (.located (.stalledRule rule) l.engine.currentPosition) captured)
        else .ok () l
      | .waitingForInput => .error (.fault (.plain .lostInput)) l := by
  simp only [settle, Program.bind_apply, Program.get_apply]
  cases l.engine.recognition with
  | tokenizing | failed => simp [onEngine, Engine.resetRecognition_eq]
  | done => rfl
  | waitingForInput => rfl
  | aborted => cases captured <;> rfl
  | ready | recognized =>
    dsimp only
    split
    · cases captured <;> rfl
    · rfl

def counted (l : Lexer) : Lexer :=
  { l with stats := { l.stats with rulesApplied := l.stats.rulesApplied + 1 } }

theorem applyModeRule_eq (n : Nat) (l : Lexer) :
    applyModeRule n l = match l.options.ruleFor? l.modes.current with
      | none => .error (.fault (.plain (.unknownMode l.modes.current))) l
      | some name => match l.ruleset.rule? name with
        | none => .error (.fault (.plain (.noRule name))) l
        | some r => match capturing (r.run (respond n)) l.counted with
          | .ok captured l' => settle name l.engine.toMark captured l'
          | .error stop l' => .error stop l' := by
  simp only [applyModeRule, modeRule, Program.bind_apply, Program.get_apply]
  cases l.options.ruleFor? l.modes.current with
  | none => rfl
  | some name =>
    simp only [Program.pure_apply]
    cases l.ruleset.rule? name with
    | none => rfl
    | some r =>
      simp only [Program.bind_apply, modifyStats, Program.modify_apply]
      rw [show ({ l with stats := { l.stats with
        rulesApplied := l.stats.rulesApplied + 1 } } : Lexer) = l.counted from rfl]
      cases capturing (r.run (respond n)) l.counted <;> rfl

/-- A rule that succeeds and gets on needs no settling. -/
theorem applyModeRule_succeeds {n : Nat} {l l' : Lexer} {name : String} {r : Rule} {reply : Reply}
    (hname : l.options.ruleFor? l.modes.current = some name)
    (hrule : l.ruleset.rule? name = some r) (hrun : r.run (respond n) l.counted = .ok reply l')
    (hr : l'.engine.recognition = .recognized)
    (hs : stalled l.engine.toMark l'.engine.toMark = false) : applyModeRule n l = .ok () l' := by
  have hcap : capturing (r.run (respond n)) l.counted = .ok false l' := by
    rw [capturing_eq, hrun]
  simp [applyModeRule_eq, hname, hrule, hcap, settle_eq, hr, hs]

def afterLayout (n : Nat) : Option Outcome → LexerM Unit
  | some .indentation => enqueueIndent
  | some .lineEnd => enqueueLineEnd
  | some .endOfStream => enqueueEnd
  | some .token | none => applyModeRule n

theorem fillStep_eq (n : Nat) {l : Lexer} {o : Option Outcome} {e : Engine}
    (h : Engine.scanLayout l.engine = .ok o e) :
    fillStep n l = afterLayout n o { l with engine := e } := by
  rw [fillStep, Program.bind_apply]
  simp only [onEngine, h]
  cases o with
  | none => rfl
  | some outcome => cases outcome <;> rfl

theorem fillStep_refuses (n : Nat) {l : Lexer} (h : ¬ l.engine.Scannable) :
    ∃ fault, fault.kind = .lexical ∧ fillStep n l = .error (.fault fault) l := by
  obtain ⟨fault, hk, hf⟩ := Engine.scanLayout_refuses h
  refine ⟨fault, hk, ?_⟩
  rw [fillStep, Program.bind_apply]
  simp only [onEngine, hf]

structure SameBooks (l l' : Lexer) : Prop where
  queue : l'.queue = l.queue
  stats : l'.stats = l.stats

theorem onEngine_books {α : Type} (m : EngineM α) : Relates SameBooks (onEngine m) := by
  intro l
  unfold onEngine
  cases m l.engine <;> exact ⟨rfl, rfl⟩

theorem scanToken_books (p : Pattern) : Relates SameBooks (scanToken p) := by
  intro l
  have h := onEngine_books (Engine.scan p) l
  rw [scanToken, Program.bind_apply]
  cases hr : onEngine (Engine.scan p) l <;> simpa [hr] using h

theorem unknownToken_books : Relates SameBooks unknownToken := by
  intro l
  rw [unknownToken_eq]
  dsimp only
  split
  · exact ⟨rfl, rfl⟩
  · exact ⟨rfl, rfl⟩
  · split
    · split <;> exact ⟨rfl, rfl⟩
    · exact ⟨rfl, rfl⟩

theorem skipChar_books : Relates SameBooks skipChar := by
  intro l
  rw [skipChar_eq]
  split <;> exact ⟨rfl, rfl⟩

theorem endQueued_frame (l : Lexer) : SameFrame l l.endQueued :=
  ⟨⟨rfl, rfl⟩, rfl, rfl, rfl, rfl⟩

theorem errorQueued_frame (e : LexError) (l : Lexer) : SameFrame l (l.errorQueued e) :=
  ⟨⟨rfl, rfl⟩, rfl, rfl, rfl, rfl⟩

theorem complained_frame (e : LexError) (captured : Bool) (l : Lexer) :
    SameFrame l (l.complained e captured) := by
  cases captured with
  | true => exact .refl l
  | false => exact errorQueued_frame e l

theorem rested_frame (l : Lexer) : SameFrame l { l with engine := l.engine.rested } :=
  ⟨Engine.rested_sameText l.engine, rfl, rfl, rfl, rfl⟩

theorem skipChar_frame : Relates SameFrame skipChar :=
  bind_frame nextChar_frame fun _ => onEngine_frame fun e => by
    simpa [Engine.resetRecognition_eq] using Engine.rested_sameText e

theorem settle_frame (rule : String) (start : Mark) (captured : Bool) :
    Relates SameFrame (settle rule start captured) := by
  intro l
  rw [settle_eq]
  split
  · exact rested_frame l
  · exact rested_frame l
  · exact endQueued_frame l
  · exact (complained_frame _ captured l).trans (endQueued_frame _)
  · split
    · exact (complained_frame _ captured l).trans (skipChar_frame _)
    · exact .refl l
  · split
    · exact (complained_frame _ captured l).trans (skipChar_frame _)
    · exact .refl l
  · exact .refl l

/-- What relates a lexer to where a program ends, and takes no notice of lexical errors that are
queued, relates it to where the program ends if its errors are captured. -/
theorem capturing_relates {α : Type} {R : Lexer → Lexer → Prop} {m : LexerM α} {l : Lexer}
    (hm : R l (Program.final (m l)))
    (he : ∀ e l', e.kind = .lexical → R l l' → R l (l'.errorQueued e)) :
    R l (Program.final (capturing m l)) := by
  rw [capturing_eq]
  cases hr : m l with
  | ok a l' =>
    rw [hr] at hm
    exact hm
  | error stop l' =>
    rw [hr] at hm
    cases stop with
    | exhausted => exact hm
    | fault e =>
      dsimp only
      split
      · next hk => exact he e l' hk hm
      · exact hm

theorem capturing_frame {α : Type} {m : LexerM α} {l : Lexer}
    (hm : SameFrame l (Program.final (m l))) :
    SameFrame l (Program.final (capturing m l)) :=
  capturing_relates hm fun e l' _ h => h.trans (errorQueued_frame e l')

theorem ruleRun_frame (r : Rule) (n : Nat) {l : Lexer} (h : l.operations = []) :
    SameFrame l (Program.final (r.run (respond n) l)) := by
  have hp := perform_frame (r.steps (respondSteps n) l) l
  rwa [← Rule.run_eq_perform (respond_answers n) r l h, final_ending] at hp

theorem enqueueIndent_frame : Relates SameFrame enqueueIndent :=
  get_frame fun _ => bind_frame (enqueueToken_frame _) fun _ => by
    split
    · exact modifyStats_frame _
    · exact pure_frame _

theorem enqueueLineEnd_frame : Relates SameFrame enqueueLineEnd := by
  intro l
  rw [enqueueLineEnd_eq]
  split
  · split
    · next h => exact ⟨⟨rfl, rfl⟩, rfl, rfl, rfl, Queue.pushAhead_transforms h⟩
    · exact .refl l
  · exact .refl l

theorem counted_frame (l : Lexer) : SameFrame l l.counted := ⟨⟨rfl, rfl⟩, rfl, rfl, rfl, rfl⟩

/-- What the rule of the mode keeps, takes no notice of errors that are queued and is kept in
settling, applying the rule keeps. -/
theorem applyModeRule_keeps {I : Lexer → Prop} {n : Nat} {l : Lexer} (h : I l)
    (hrun : ∀ name r, l.options.ruleFor? l.modes.current = some name →
      l.ruleset.rule? name = some r → I (Program.final (r.run (respond n) l.counted)))
    (hqueued : ∀ e a, I a → I (a.errorQueued e))
    (hsettle : ∀ rule captured a, I a →
      I (Program.final (settle rule l.engine.toMark captured a))) :
    I (Program.final (applyModeRule n l)) := by
  rw [applyModeRule_eq]
  cases hname : l.options.ruleFor? l.modes.current with
  | none => exact h
  | some name =>
    dsimp only
    cases hr : l.ruleset.rule? name with
    | none => exact h
    | some r =>
      have hcap := capturing_relates (R := fun _ a => I a) (hrun name r hname hr)
        fun e a _ => hqueued e a
      dsimp only
      cases hc : capturing (r.run (respond n)) l.counted with
      | error stop l₁ =>
        rw [hc] at hcap
        exact hcap
      | ok captured l₁ =>
        rw [hc] at hcap
        exact hsettle name captured l₁ hcap

theorem applyModeRule_frame (n : Nat) {l : Lexer} (h : l.operations = []) :
    SameFrame l (Program.final (applyModeRule n l)) :=
  applyModeRule_keeps (.refl l)
    (fun _ r _ _ => (counted_frame l).trans (ruleRun_frame (l := l.counted) r n h))
    (fun e a ha => ha.trans (errorQueued_frame e a))
    fun rule captured a ha => ha.trans (settle_frame rule _ captured a)

/-- What each way to go on after the layout step keeps, a driver step keeps. -/
theorem fillStep_keeps {I : Lexer → Prop} {n : Nat} {l : Lexer} (h : I l)
    (hindent : ∀ e, Engine.scanLayout l.engine = .ok (some .indentation) e →
      I (Program.final (enqueueIndent { l with engine := e })))
    (hline : ∀ e, Engine.scanLayout l.engine = .ok (some .lineEnd) e →
      I (Program.final (enqueueLineEnd { l with engine := e })))
    (hend : ∀ e, Engine.scanLayout l.engine = .ok (some .endOfStream) e →
      I (endQueued { l with engine := e }))
    (hrule : ∀ e, Engine.scanLayout l.engine = .ok none e →
      I (Program.final (applyModeRule n { l with engine := e }))) :
    I (Program.final (fillStep n l)) := by
  by_cases hs : l.engine.Scannable
  · obtain ⟨o, e, hlay⟩ := Engine.scanLayout_total hs
    rw [fillStep_eq n hlay]
    cases o with
    | none => exact hrule e hlay
    | some outcome =>
      cases outcome with
      | indentation => exact hindent e hlay
      | lineEnd => exact hline e hlay
      | endOfStream => exact hend e hlay
      | token => cases (Engine.scanLayout_eq_ok_iff.mp hlay).2
  · obtain ⟨fault, -, hf⟩ := fillStep_refuses n hs
    rw [hf]
    exact h

theorem layout_frame {l : Lexer} {o : Option Outcome} {e : Engine}
    (h : Engine.scanLayout l.engine = .ok o e) : SameFrame l { l with engine := e } :=
  ⟨(Engine.scanLayout_eq_ok_iff.mp h).2.sameText, rfl, rfl, rfl, rfl⟩

theorem fillStep_frame (n : Nat) {l : Lexer} (h : l.operations = []) :
    SameFrame l (Program.final (fillStep n l)) :=
  fillStep_keeps (.refl l) (fun _ he => (layout_frame he).trans (enqueueIndent_frame _))
    (fun _ he => (layout_frame he).trans (enqueueLineEnd_frame _))
    (fun _ he => (layout_frame he).trans (endQueued_frame _))
    fun _ he => (layout_frame he).trans (applyModeRule_frame n h)

end TableLexer.Lexer
