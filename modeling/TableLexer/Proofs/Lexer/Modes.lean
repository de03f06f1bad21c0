import TableLexer.Proofs.Lexer.Calls

/-!
# What a lexer shows of its base mode

A lexer never looks at its modes but to find the rule of the current one. So two lexers that
differ only in their base modes, where both base modes apply one rule, cannot be told apart: they
give the same answers and stay alike.
-/
namespace TableLexer

/-- Two stacks of modes that differ at the bottom only, and there both apply one rule. -/
structure Modes.Like (options : Options) (m m' : Modes) : Prop where
  pushed : m'.pushed = m.pushed
  rule : ∃ rule, options.ruleFor? m.base = some rule ∧ options.ruleFor? m'.base = some rule

namespace Modes.Like

variable {options : Options} {m m' : Modes}

theorem ruleFor?_current (h : m.Like options m') :
    options.ruleFor? m'.current = options.ruleFor? m.current := by
  unfold current
  rw [h.pushed]
  cases m.pushed with
  | nil =>
    obtain ⟨rule, hm, hm'⟩ := h.rule
    exact hm'.trans hm.symm
  | cons => rfl

theorem current_eq (h : m.Like options m') (hn : options.ruleFor? m.current = none) :
    m'.current = m.current := by
  unfold current at hn ⊢
  rw [h.pushed]
  cases hp : m.pushed with
  | nil =>
    obtain ⟨rule, hm, -⟩ := h.rule
    simp [hp, hm] at hn
  | cons => rfl

theorem replace {mode rule : String} (h : m.Like options m')
    (hr : options.ruleFor? mode = some rule) :
    (m.replace mode).Like options (m'.replace mode) := by
  unfold Modes.replace
  rw [h.pushed]
  cases m.pushed with
  | nil => exact ⟨rfl, rule, hr, hr⟩
  | cons => exact ⟨rfl, h.rule⟩

theorem push (h : m.Like options m') (mode : String) :
    (m.push mode).Like options (m'.push mode) :=
  ⟨congrArg (mode :: ·) h.pushed, h.rule⟩

theorem cleared (h : m.Like options m') :
    Like options { m with pushed := [] } { m' with pushed := [] } := ⟨rfl, h.rule⟩

end Modes.Like

namespace Lexer

def ModesOnly (l l' : Lexer) : Prop := l' = { l with modes := l'.modes }

theorem ModesOnly.trans {a b c : Lexer} (h : ModesOnly a b) (k : ModesOnly b c) :
    ModesOnly a c := by
  unfold ModesOnly at *
  rw [k, h]

theorem modesOnly_bind {α β : Type} {m : LexerM α} {f : α → LexerM β}
    (hm : Program.Relates ModesOnly m) (hf : ∀ a, Program.Relates ModesOnly (f a)) :
    Program.Relates ModesOnly (m >>= f) :=
  Program.Relates.bind (R := ModesOnly) (fun _ _ _ => ModesOnly.trans) hm hf

theorem changeMode_modesOnly (mode : String) (f : Lexer → Modes) :
    Program.Relates ModesOnly
      (do checkMode mode; modify fun l => { l with modes := f l } : LexerM Unit) := by
  intro l
  simp only [checkMode, Program.bind_apply, Program.get_apply]
  cases (l.options.ruleFor? mode).isNone <;> rfl

theorem modeArgument_modesOnly (message : String) (args : List Value) :
    Program.Relates ModesOnly (modeArgument message args) := by
  intro l
  unfold modeArgument
  cases args.head?.bind Value.asText? <;> rfl

theorem popMode_modesOnly : Program.Relates ModesOnly popMode := by
  intro l
  simp only [popMode, Program.bind_apply, Program.get_apply]
  cases l.modes.pop? <;> rfl

theorem modeMessage_modesOnly (message : String) (args : List Value)
    (hm : message ∈ ["set_mode", "push_mode", "pop_mode"]) :
    Program.Relates ModesOnly (builtIn message args) := by
  have hnone : Program.Relates ModesOnly (pure none : LexerM Reply) := fun _ => rfl
  simp only [List.mem_cons, List.not_mem_nil, or_false] at hm
  rcases hm with rfl | rfl | rfl
  · exact modesOnly_bind (modeArgument_modesOnly _ _) fun mode =>
      modesOnly_bind (changeMode_modesOnly mode _) fun _ => hnone
  · exact modesOnly_bind (modeArgument_modesOnly _ _) fun mode =>
      modesOnly_bind (changeMode_modesOnly mode _) fun _ => hnone
  · exact modesOnly_bind popMode_modesOnly fun _ => hnone

theorem builtIn_books (message : String) (args : List Value) :
    Program.Relates SameBooks (builtIn message args) := by
  intro l
  have hengine : ∀ {α : Type} (m : EngineM α), SameBooks l
      (Program.final ((do let _ ← onEngine m; return none : LexerM Reply) l)) := by
    intro α m
    have h := onEngine_books m l
    rw [Program.bind_apply]
    cases hr : onEngine m l <;> simpa [hr] using h
  by_cases hm : message ∈ ["set_mode", "push_mode", "pop_mode"]
  · rw [modeMessage_modesOnly message args hm l]
    exact ⟨rfl, rfl⟩
  · unfold builtIn
    split
    · exact unknownToken_books l
    · exact hengine _
    · exact ⟨rfl, rfl⟩
    · exact hengine _
    · exact ⟨rfl, rfl⟩
    · exact hengine _
    · exact ⟨rfl, rfl⟩
    · exact absurd (by simp) hm
    · exact absurd (by simp) hm
    · exact absurd (by simp) hm
    · exact ⟨rfl, rfl⟩

/-- The property passes from the parts of a program to the program, and holds of all parts that
neither read nor change the modes. -/
structure Inherited (C : {α : Type} → LexerM α → Prop) : Prop where
  pure : ∀ {α : Type} (a : α), C (Pure.pure a : LexerM α)
  throw : ∀ {α : Type} (stop : Stop), C (MonadExcept.throw stop : LexerM α)
  bind : ∀ {α β : Type} {m : LexerM α} {f : α → LexerM β}, C m → (∀ a, C (f a)) → C (m >>= f)
  get : ∀ {α : Type} {f : Lexer → LexerM α}, (∀ l modes, f { l with modes } = f l) →
    (∀ l, C (f l)) → C (get >>= f)
  modify : ∀ {f : Lexer → Lexer}, (∀ l modes, f { l with modes } = { f l with modes }) →
    (∀ l, (f l).modes = l.modes) → (∀ l, (f l).options = l.options) →
    (∀ l, (f l).finished = l.finished) → C (modify f : LexerM Unit)
  onEngine : ∀ {α : Type} (m : EngineM α), C (onEngine m)
  onQueue : ∀ {α : Type} (m : QueueM α), C (onQueue m)

namespace Inherited

variable {C : {α : Type} → LexerM α → Prop} {α β : Type}

theorem answered (hc : Inherited C) {m : LexerM α} (hm : C m) (b : β) :
    C (m >>= fun _ => Pure.pure b) := hc.bind hm fun _ => hc.pure b

theorem ite {c : Prop} [Decidable c] {m₁ m₂ : LexerM α} (h₁ : C m₁) (h₂ : C m₂) :
    C (if c then m₁ else m₂) := by
  split
  · exact h₁
  · exact h₂

theorem modifyEngine (hc : Inherited C) (f : Engine → Engine) : C (modifyEngine f) :=
  hc.modify (fun _ _ => rfl) (fun _ => rfl) (fun _ => rfl) fun _ => rfl

theorem modifyStats (hc : Inherited C) (f : Stats → Stats) : C (modifyStats f) :=
  hc.modify (fun _ _ => rfl) (fun _ => rfl) (fun _ => rfl) fun _ => rfl

theorem checkMode (hc : Inherited C) (mode : String) : C (checkMode mode) :=
  hc.get (fun _ _ => rfl) fun _ => ite (hc.throw _) (hc.pure _)

theorem modeArgument (hc : Inherited C) (message : String) (args : List Value) :
    C (modeArgument message args) := by
  unfold Lexer.modeArgument
  split
  · exact hc.pure _
  · exact hc.throw _

theorem enqueueToken (hc : Inherited C) (type : TokenType) : C (enqueueToken type) := by
  refine hc.get (fun _ _ => rfl) fun l => ite (hc.pure _) ?_
  refine hc.bind (hc.onEngine _) fun _ => hc.get (fun _ _ => rfl) fun l => ?_
  refine hc.bind
    (hc.modify (fun _ _ => rfl) (fun _ => rfl) (fun _ => rfl) fun _ => rfl) fun _ => ?_
  exact hc.bind (hc.onQueue _) fun _ => hc.answered (hc.modifyStats _) _

theorem scanToken (hc : Inherited C) (p : Pattern) : C (scanToken p) :=
  hc.bind (hc.onEngine _) fun _ => hc.pure _

theorem unknownToken (hc : Inherited C) : C unknownToken := by
  refine hc.get (fun _ _ => rfl) fun l => ?_
  have hreport : C (do
      let engine := (← MonadState.get).engine
      Lexer.onEngine Engine.markFailed
      fail (.located (.unknownToken engine.lexemeText) engine.lexemePosition) :
      LexerM Reply) :=
    hc.get (fun _ _ => rfl) fun _ => hc.bind (hc.onEngine _) fun _ => hc.throw _
  dsimp only
  cases l.engine.recognition with
  | done => exact hc.pure none
  | aborted => exact hc.throw _
  | waitingForInput | ready | tokenizing | recognized | failed =>
    refine ite ?_ hreport
    exact hc.bind (hc.onEngine _) fun _ => ite (hc.pure none) hreport

theorem retypeLast (hc : Inherited C) (old new : TokenType) : C (retypeLast old new) :=
  hc.bind (hc.modify (fun _ _ => rfl) (fun _ => rfl) (fun _ => rfl) fun _ => rfl) fun _ =>
    hc.get (fun _ _ => rfl) fun _ => hc.pure _

theorem builtIn (hc : Inherited C) {message : String} (args : List Value)
    (hset : message = "set_mode" → ∀ mode, C (setMode mode))
    (hpush : message = "push_mode" → ∀ mode, C (pushMode mode))
    (hpop : message = "pop_mode" → C popMode) : C (builtIn message args) := by
  unfold Lexer.builtIn
  split
  · exact hc.unknownToken
  · exact hc.answered (hc.onEngine _) none
  · exact hc.answered (hc.modifyEngine _) none
  · exact hc.answered (hc.onEngine _) none
  · exact hc.answered (hc.modifyEngine _) none
  · exact hc.answered (hc.onEngine _) none
  · exact hc.answered (hc.modifyEngine _) none
  · exact hc.bind (hc.modeArgument _ _) fun mode => hc.answered (hset rfl mode) none
  · exact hc.bind (hc.modeArgument _ _) fun mode => hc.answered (hpush rfl mode) none
  · exact hc.answered (hpop rfl) none
  · exact hc.throw _

theorem step (hc : Inherited C) {s : Step}
    (hset : ∀ args, s = .message "set_mode" args → ∀ mode, C (setMode mode))
    (hpush : ∀ args, s = .message "push_mode" args → ∀ mode, C (pushMode mode))
    (hpop : ∀ args, s = .message "pop_mode" args → C popMode) : C s.run := by
  cases s with
  | nextChar => exact hc.answered (hc.onEngine _) ()
  | scan p => exact hc.answered (hc.scanToken p) ()
  | enqueue type => exact hc.answered (hc.enqueueToken type) ()
  | unknownToken => exact hc.answered hc.unknownToken ()
  | putBack => exact hc.onEngine _
  | clear => exact hc.modifyEngine _
  | retype old new => exact hc.answered (hc.retypeLast old new) ()
  | message name args =>
    refine hc.answered (hc.builtIn args ?_ ?_ ?_) ()
    · rintro rfl
      exact hset args rfl
    · rintro rfl
      exact hpush args rfl
    · rintro rfl
      exact hpop args rfl
  | halt stop => exact hc.throw stop

theorem capture (hc : Inherited C) (e : LexError) : C (capture e) :=
  hc.bind (hc.modifyStats _) fun _ => hc.answered (hc.onQueue _) _

theorem enqueueEnd (hc : Inherited C) : C enqueueEnd :=
  hc.get (fun _ _ => rfl) fun _ => hc.answered (hc.onQueue _) _

theorem skipChar (hc : Inherited C) : C skipChar :=
  hc.bind (hc.onEngine _) fun _ => hc.onEngine _

theorem settle (hc : Inherited C) (rule : String) (start : Mark) (captured : Bool) :
    C (settle rule start captured) := by
  refine hc.get (fun _ _ => rfl) fun l => ?_
  dsimp only
  cases l.engine.recognition with
  | tokenizing | failed => exact hc.onEngine _
  | done => exact hc.enqueueEnd
  | aborted =>
    cases captured with
    | true => exact hc.enqueueEnd
    | false => exact hc.bind (hc.capture _) fun _ => hc.enqueueEnd
  | ready | recognized =>
    refine ite ?_ (hc.pure _)
    cases captured with
    | true => exact hc.skipChar
    | false => exact hc.bind (hc.capture _) fun _ => hc.skipChar
  | waitingForInput => exact hc.throw _

theorem enqueueIndent (hc : Inherited C) : C enqueueIndent :=
  hc.get (fun _ _ => rfl) fun _ => hc.bind (hc.enqueueToken _) fun _ =>
    ite (hc.modifyStats _) (hc.pure _)

theorem enqueueLineEnd (hc : Inherited C) : C enqueueLineEnd := by
  refine hc.get (fun _ _ => rfl) fun l => ite ?_ (hc.pure _)
  refine hc.bind (hc.onQueue _) fun _ => hc.bind (hc.modifyStats _) fun _ => ?_
  exact ite (hc.modifyStats _) (hc.pure _)

end Inherited

def Alike (l l' : Lexer) : Prop := ∃ modes, l' = { l with modes } ∧ l.modes.Like l.options modes

inductive Matches {α : Type} :
    EStateM.Result Stop Lexer α → EStateM.Result Stop Lexer α → Prop where
  | ok {l l' : Lexer} (a : α) (h : Alike l l') : Matches (.ok a l) (.ok a l')
  | error {l l' : Lexer} (stop : Stop) (h : Alike l l') : Matches (.error stop l) (.error stop l')

def Blind {α : Type} (m : LexerM α) : Prop := ∀ l l', Alike l l' → Matches (m l) (m l')

theorem Blind.final {α : Type} {m : LexerM α} (h : Blind m) {l l' : Lexer} (ha : Alike l l') :
    Alike (Program.final (m l)) (Program.final (m l')) := by
  have hm := h l l' ha
  generalize m l = r, m l' = r' at hm
  cases hm with
  | ok _ ha => exact ha
  | error _ ha => exact ha

theorem Blind.bind {α β : Type} {m : LexerM α} {f : α → LexerM β} (hm : Blind m)
    (hf : ∀ a, Blind (f a)) : Blind (m >>= f) := by
  intro l l' h
  have hr := hm l l' h
  rw [Program.bind_apply, Program.bind_apply]
  generalize m l = r, m l' = r' at hr
  cases hr with
  | ok a h => exact hf a _ _ h
  | error stop h => exact .error stop h

theorem blind_inherited : Inherited @Blind where
  pure a := fun _ _ h => .ok a h
  throw stop := fun _ _ h => .error stop h
  bind := Blind.bind
  get hsame hf := by
    rintro l _ ⟨modes, rfl, h⟩
    simp only [Program.bind_apply, Program.get_apply, hsame]
    exact hf l l _ ⟨modes, rfl, h⟩
  modify hsame hmodes hoptions _ := by
    rintro l _ ⟨modes, rfl, h⟩
    refine .ok _ ⟨modes, hsame l modes, ?_⟩
    rw [hmodes, hoptions]
    exact h
  onEngine m := by
    rintro l _ ⟨modes, rfl, h⟩
    unfold Lexer.onEngine
    dsimp only
    cases m l.engine with
    | ok a e => exact .ok a ⟨modes, rfl, h⟩
    | error fault e => exact .error _ ⟨modes, rfl, h⟩
  onQueue m := by
    rintro l _ ⟨modes, rfl, h⟩
    unfold Lexer.onQueue
    dsimp only
    cases m l.queue with
    | ok a q => exact .ok a ⟨modes, rfl, h⟩
    | error fault q => exact .error _ ⟨modes, rfl, h⟩

theorem setInput_blind (text : String) : Blind (setInput text) := by
  rintro l _ ⟨modes, rfl, h⟩
  rw [setInput_eq, setInput_eq]
  dsimp only
  split
  · exact .error _ ⟨modes, rfl, h⟩
  · exact .ok _ ⟨{ modes with pushed := [] }, rfl, h.cleared⟩

theorem modeRule_blind : Blind modeRule := by
  rintro l _ ⟨modes, rfl, h⟩
  simp only [modeRule, Program.bind_apply, Program.get_apply, h.ruleFor?_current]
  cases hr : l.options.ruleFor? l.modes.current with
  | some rule => exact .ok _ ⟨modes, rfl, h⟩
  | none =>
    rw [h.current_eq hr]
    exact .error _ ⟨modes, rfl, h⟩

theorem setMode_blind (mode : String) : Blind (setMode mode) := by
  rintro l _ ⟨modes, rfl, h⟩
  simp only [setMode, checkMode, Program.bind_apply, Program.get_apply]
  cases hr : l.options.ruleFor? mode with
  | none => exact .error _ ⟨modes, rfl, h⟩
  | some rule => exact .ok _ ⟨modes.replace mode, rfl, h.replace hr⟩

theorem pushMode_blind (mode : String) : Blind (pushMode mode) := by
  apply Blind.bind (blind_inherited.checkMode mode)
  rintro - l _ ⟨modes, rfl, h⟩
  exact .ok _ ⟨modes.push mode, rfl, h.push mode⟩

theorem popMode_blind : Blind popMode := by
  rintro l _ ⟨modes, rfl, h⟩
  simp only [popMode, Program.bind_apply, Program.get_apply, Modes.pop?, h.pushed]
  cases l.modes.pushed with
  | nil => exact .error _ ⟨modes, rfl, h⟩
  | cons mode rest => exact .ok _ ⟨{ modes with pushed := rest }, rfl, ⟨rfl, h.rule⟩⟩

theorem sendMessage_blind {call : Call → LexerM Reply} (hc : ∀ c, Blind (call c))
    (message : String) (args : List Value) : Blind (sendMessage call message args) := by
  refine blind_inherited.get (fun _ _ => rfl) fun l => ?_
  cases l.operation? message with
  | none =>
    exact blind_inherited.builtIn args (fun _ => setMode_blind) (fun _ => pushMode_blind)
      fun _ => popMode_blind
  | some op =>
    cases op with
    | keyword => exact blind_inherited.get (fun _ _ => rfl) fun _ => blind_inherited.enqueueToken _
    | perform action => exact hc (.perform action)
    | fail => exact blind_inherited.get (fun _ _ => rfl) fun _ => blind_inherited.throw _
    | pushAhead => exact blind_inherited.get (fun _ _ => rfl) fun _ => blind_inherited.onQueue _
    | setInput text => exact blind_inherited.answered (setInput_blind text) none

end Lexer

open Lexer

variable {call : Call → LexerM Reply}

namespace Action

theorem runOption_blind {o : Option Action} (ih : ∀ a ∈ o, Blind (run call a)) :
    Blind (runOption call o) := by
  cases o with
  | none =>
    simp only [runOption]
    exact blind_inherited.pure none
  | some a =>
    simp only [runOption]
    exact ih a rfl

theorem runList_blind {actions : List Action} (ih : ∀ a ∈ actions, Blind (run call a))
    (last : Reply) : Blind (runList call last actions) := by
  induction actions generalizing last with
  | nil =>
    simp only [runList]
    exact blind_inherited.pure last
  | cons a rest ihrest =>
    simp only [runList]
    apply Blind.bind (ih a List.mem_cons_self)
    intro reply
    exact ihrest (fun b hb => ih b (List.mem_cons_of_mem _ hb)) reply

theorem runPairs_blind {pairs : List (Pattern × Action)}
    (ih : ∀ pair ∈ pairs, Blind (run call pair.2)) (last : Reply) :
    Blind (runPairs call last pairs) := by
  induction pairs generalizing last with
  | nil =>
    simp only [runPairs]
    exact blind_inherited.pure last
  | cons pair rest ihrest =>
    obtain ⟨p, a⟩ := pair
    simp only [runPairs]
    refine Blind.bind (blind_inherited.scanToken p) fun found => ?_
    apply Inherited.ite _ blind_inherited.unknownToken
    apply Blind.bind (ih (p, a) List.mem_cons_self)
    intro reply
    exact ihrest (fun b hb => ih b (List.mem_cons_of_mem _ hb)) reply

theorem run_blind (hc : ∀ c, Blind (call c)) (a : Action) : Blind (run call a) := by
  induction a with
  | enqueue type =>
    simp only [run]
    exact blind_inherited.enqueueToken type
  | send message args =>
    simp only [run]
    exact sendMessage_blind hc message args
  | subrule name =>
    simp only [run]
    exact hc (.subrule name)
  | changeState message state next ih =>
    simp only [run]
    exact Blind.bind (sendMessage_blind hc message _) fun _ => ih
  | onLexeme p hit miss ihhit ihmiss =>
    simp only [run]
    exact blind_inherited.get (fun _ _ => rfl) fun _ =>
      Inherited.ite ihhit (runOption_blind ihmiss)
  | onScan p hit miss ihhit ihmiss =>
    simp only [run]
    exact Blind.bind (blind_inherited.scanToken p) fun _ =>
      Inherited.ite ihhit (runOption_blind ihmiss)
  | patterns pairs ih =>
    simp only [run]
    exact runPairs_blind ih none
  | sequence actions ih =>
    simp only [run]
    exact runList_blind ih none
  | putBack =>
    simp only [run]
    exact blind_inherited.answered (blind_inherited.onEngine _) none
  | clear =>
    simp only [run]
    exact blind_inherited.answered (blind_inherited.modifyEngine _) none
  | retype old new =>
    simp only [run]
    exact blind_inherited.retypeLast old new

end Action

namespace Rule

theorem firstScanned_blind (handlers : List Handler) : Blind (firstScanned handlers) := by
  induction handlers with
  | nil => exact blind_inherited.pure none
  | cons h rest ih =>
    exact Blind.bind (blind_inherited.scanToken h.pattern) fun _ =>
      Inherited.ite (blind_inherited.pure _) ih

theorem dispatch_blind (r : Rule) : Blind r.dispatch := by
  unfold dispatch
  cases r.kind with
  | standard => exact Blind.bind (blind_inherited.onEngine _) fun _ => blind_inherited.pure _
  | lookahead => exact firstScanned_blind r.handlers

theorem run_blind (hc : ∀ c, Blind (call c)) (r : Rule) : Blind (r.run call) := by
  refine Blind.bind (Action.runOption_blind fun a _ => Action.run_blind hc a) fun _ => ?_
  apply Blind.bind (dispatch_blind r)
  intro found
  cases found with
  | some h => exact Action.run_blind hc h.action
  | none => exact Action.run_blind hc r.otherwise

end Rule

namespace Lexer

theorem respond_blind (n : Nat) (c : Call) : Blind (respond n c) := by
  induction n generalizing c with
  | zero => exact blind_inherited.throw .exhausted
  | succ n ih =>
    cases c with
    | subrule name =>
      refine blind_inherited.get (fun _ _ => rfl) fun l => ?_
      cases l.ruleset.rule? name with
      | some r => exact Rule.run_blind ih r
      | none => exact blind_inherited.throw _
    | perform action => exact Action.run_blind ih action

theorem capturing_blind {α : Type} {m : LexerM α} (hm : Blind m) : Blind (capturing m) := by
  intro l l' h
  have hr := hm l l' h
  unfold capturing
  generalize m l = r, m l' = r' at hr
  cases hr with
  | ok a h => exact .ok false h
  | error stop h =>
    cases stop with
    | exhausted => exact .error _ h
    | fault e =>
      dsimp only
      split
      · exact blind_inherited.answered (blind_inherited.capture e) true _ _ h
      · exact .error _ h

theorem applyModeRule_blind (n : Nat) : Blind (applyModeRule n) := by
  refine Blind.bind modeRule_blind fun name => blind_inherited.get (fun _ _ => rfl) fun l => ?_
  cases l.ruleset.rule? name with
  | none => exact blind_inherited.throw _
  | some r =>
    have hrun := capturing_blind (Rule.run_blind (respond_blind n) r)
    exact Blind.bind (blind_inherited.modifyStats _) fun _ => Blind.bind hrun fun _ =>
      blind_inherited.settle _ _ _

theorem fillStep_blind (n : Nat) : Blind (fillStep n) := by
  apply Blind.bind (blind_inherited.onEngine _)
  intro o
  cases o with
  | none => exact applyModeRule_blind n
  | some outcome =>
    cases outcome with
    | indentation => exact blind_inherited.enqueueIndent
    | lineEnd => exact blind_inherited.enqueueLineEnd
    | endOfStream => exact blind_inherited.enqueueEnd
    | token => exact applyModeRule_blind n

theorem fillQueue_blind (n rounds : Nat) : Blind (fillQueue n rounds) := by
  induction rounds with
  | zero => exact blind_inherited.throw .exhausted
  | succ rounds ih =>
    exact blind_inherited.get (fun _ _ => rfl) fun _ =>
      Inherited.ite (Blind.bind (fillStep_blind n) fun _ => ih) (blind_inherited.pure _)

theorem nextToken_blind (n : Nat) : Blind (nextToken n) := by
  refine blind_inherited.get (fun _ _ => rfl) fun l => ?_
  have hdeliver : Blind (onQueue QueueM.dequeue) := blind_inherited.onQueue _
  have hfill : Blind (if l.queue.isEmpty then
      if l.engine.recognition = .ready ∨ l.engine.recognition = .recognized then
        fillQueue n n >>= fun _ => onQueue QueueM.dequeue
      else fail (.plain (.notScanning l.engine.recognition)) >>= fun _ : Unit =>
        onQueue QueueM.dequeue
      else onQueue QueueM.dequeue) := by
    refine Inherited.ite (Inherited.ite ?_ ?_) hdeliver
    · exact Blind.bind (fillQueue_blind n n) fun _ => hdeliver
    · exact Blind.bind (blind_inherited.throw _) fun _ => hdeliver
  exact Inherited.ite (Blind.bind (blind_inherited.throw _) fun _ => hfill) hfill

theorem answer_of_matches {r r' : EStateM.Result Stop Lexer Entry} (h : Matches r r') :
    answer r' = answer r := by
  cases h <;> rfl

/-- Lexers that are alike answer all calls alike. -/
theorem Alike.answers {l l' : Lexer} (h : Alike l l') (n k : Nat) :
    l'.answers n k = l.answers n k := by
  induction k generalizing l l' with
  | zero => rfl
  | succ k ih =>
    rw [Lexer.answers, Lexer.answers, answer_of_matches (nextToken_blind n l l' h),
      ih ((nextToken_blind n).final h)]

theorem Alike.afterCalls {l l' : Lexer} (h : Alike l l') (n k : Nat) :
    Alike (afterCalls n k l) (afterCalls n k l') := by
  induction k generalizing l l' with
  | zero => exact h
  | succ k ih => exact ih ((nextToken_blind n).final h)

end Lexer
end TableLexer
