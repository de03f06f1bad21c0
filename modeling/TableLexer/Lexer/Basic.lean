import TableLexer.Engine.Scan
import TableLexer.Queue
import TableLexer.Ruleset

/-!
# The lexer

An engine, a queue and a ruleset, with the current mode, the operations registered by name and
counters of what happened since the input was given.

The options say which layout becomes tokens, which rule each mode applies, and what the engine and
the queue are made of.
-/
namespace TableLexer

def defaultMode : String := "default"

/-- `modeRules` is ordered by mode. -/
structure Options where
  indentTokens : Bool := false
  eolTokens : Bool := false
  mainRule : String := "main"
  modeRules : List (String × String) := []
  eolType : TokenType := .symbol "T_EOL"
  indentType : TokenType := .symbol "T_INDENT"
  engine : EngineConfig := {}
  transforms : List Transform := []

namespace Options

/-- Gives a mode its rule; a mode that has one gets the new rule. -/
def withMode (o : Options) (mode rule : String) : Options :=
  { o with
    modeRules := Ruleset.insertBy (fun a b => decide (a.1 < b.1)) (mode, rule)
      (o.modeRules.filter (·.1 ≠ mode)) }

def withTransform (o : Options) (t : Transform) : Options :=
  { o with transforms := o.transforms ++ [t] }

def ruleFor? (o : Options) (mode : String) : Option String :=
  if mode = defaultMode then some o.mainRule else o.modeRules.lookup mode

def flagBits (o : Options) : Nat :=
  (if o.indentTokens then 1 else 0) + (if o.eolTokens then 2 else 0)

/-- The engine's patterns: indentation is looked for if and only if it becomes tokens. -/
def engineConfig (o : Options) : EngineConfig :=
  { o.engine with
    indentation :=
      if o.indentTokens then some (o.engine.indentation.getD LayoutPattern.spacesAndTabs)
      else none }

end Options

structure Stats where
  rulesApplied : Nat := 0
  tokensEmitted : Nat := 0
  tokensDropped : Nat := 0
  errorsCaptured : Nat := 0
  eolTokens : Nat := 0
  indentTokens : Nat := 0
  deriving DecidableEq, Repr

def Stats.recordQueued (s : Stats) (queued : Bool) : Stats :=
  if queued then { s with tokensEmitted := s.tokensEmitted + 1 }
  else { s with tokensDropped := s.tokensDropped + 1 }

/-- What a rule can ask of the lexer beyond the built-in messages. -/
inductive Operation where
  /-- Emit the lexeme as `hit` if it is one of the arguments, else as `miss`. -/
  | keyword (hit miss : TokenType)
  | perform (action : Action)
  | fail (kind : ErrorKind) (text : String)
  /-- Deliver a copy of the lexeme next, valued by the first argument. -/
  | pushAhead (type : TokenType)
  | setInput (text : String)
  deriving Repr

structure Modes where
  base : String := defaultMode
  pushed : List String := []
  deriving DecidableEq, Repr

namespace Modes

def current (m : Modes) : String := m.pushed.head?.getD m.base

def replace (m : Modes) (mode : String) : Modes :=
  match m.pushed with
  | [] => { m with base := mode }
  | _ :: rest => { m with pushed := mode :: rest }

def push (m : Modes) (mode : String) : Modes := { m with pushed := mode :: m.pushed }

def pop? (m : Modes) : Option Modes :=
  match m.pushed with
  | [] => none
  | _ :: rest => some { m with pushed := rest }

def toList (m : Modes) : List String := m.base :: m.pushed.reverse

end Modes

/-- `operations` is ordered by name. -/
structure Lexer where
  engine : Engine
  queue : Queue
  ruleset : Ruleset
  options : Options
  modes : Modes := {}
  operations : List (String × Operation) := []
  stats : Stats := {}
  finished : Bool := false

/-- Why a call of the lexer ended early: an error, or a rule that did not come to an end
within its allowance of nested calls. -/
inductive Stop where
  | fault (e : LexError)
  | exhausted
  deriving DecidableEq, Repr

/-- Programs over a lexer. A program that stops early keeps the lexer as it was then. -/
abbrev LexerM := EStateM Stop Lexer

abbrev Reply := Option Entry

namespace Lexer

def orphanMode? (ruleset : Ruleset) (options : Options) : Option (String × String) :=
  options.modeRules.find? fun (_, rule) => (ruleset.rule? rule).isNone

/-- A lexer for a ruleset that is valid and has a rule for every mode. -/
def new (ruleset : Ruleset) (options : Options) : Except LexError Lexer := do
  ruleset.validate
  if (ruleset.rule? options.mainRule).isNone then throw (.plain (.noMainRule options.mainRule))
  if let some (mode, rule) := orphanMode? ruleset options then
    throw (.plain (.unknownModeRule mode rule))
  let queue ← Queue.withTransforms options.transforms
  return { engine := .new options.engineConfig, queue, ruleset, options }

def register (l : Lexer) (name : String) (op : Operation) : Lexer :=
  { l with
    operations := Ruleset.insertBy (fun a b => decide (a.1 < b.1)) (name, op)
      (l.operations.filter (·.1 ≠ name)) }

def operation? (l : Lexer) (name : String) : Option Operation := l.operations.lookup name

def describe (l : Lexer) : String :=
  let quoted (names : List String) := "[" ++ ", ".intercalate (names.map Text.quoteText) ++ "]"
  "modes: " ++ quoted l.modes.toList ++ ", messages: " ++ quoted (l.operations.map Prod.fst)

def fail {α : Type} (e : LexError) : LexerM α := throw (.fault e)

def onEngine {α : Type} (m : EngineM α) : LexerM α := fun l =>
  match m l.engine with
  | .ok a engine => .ok a { l with engine }
  | .error e engine => .error (.fault e) { l with engine }

def modifyEngine (f : Engine → Engine) : LexerM Unit :=
  modify fun l => { l with engine := f l.engine }

def modifyStats (f : Stats → Stats) : LexerM Unit :=
  modify fun l => { l with stats := f l.stats }

def onQueue {α : Type} (m : QueueM α) : LexerM α := fun l =>
  match m l.queue with
  | .ok a queue => .ok a { l with queue }
  | .error e queue => .error (.fault e) { l with queue }

/-- Starts over on a new text. The base mode stays. -/
def setInput (text : String) : LexerM Unit := do
  onEngine (Engine.setInput text.toList)
  modify fun l =>
    { l with
      queue := l.queue.clear
      modes := { l.modes with pushed := [] }
      stats := {}
      finished := false }

def modeRule : LexerM String := do
  let l ← get
  match l.options.ruleFor? l.modes.current with
  | some rule => return rule
  | none => fail (.plain (.unknownMode l.modes.current))

def checkMode (mode : String) : LexerM Unit := do
  if ((← get).options.ruleFor? mode).isNone then fail (.plain (.unknownMode mode))

def setMode (mode : String) : LexerM Unit := do
  checkMode mode
  modify fun l => { l with modes := l.modes.replace mode }

def pushMode (mode : String) : LexerM Unit := do
  checkMode mode
  modify fun l => { l with modes := l.modes.push mode }

def popMode : LexerM Unit := do
  match (← get).modes.pop? with
  | some modes => modify fun l => { l with modes }
  | none => fail (.plain .noModePushed)

/-- Queues the lexeme as a token, unless scanning has ended. -/
def enqueueToken (type : TokenType) : LexerM Reply := do
  if (← get).engine.recognition.isTerminal then return none
  onEngine Engine.markRecognized
  let (token, engine) := (← get).engine.takeToken
  modify fun l => { l with engine }
  let queued ← onQueue (QueueM.enqueue (.token type token))
  modifyStats (·.recordQueued queued.isSome)
  return queued

/-- Raises the error for an unknown token: the lexeme, or else the next character. After the
end of the text there is nothing to report. -/
def unknownToken : LexerM Reply := do
  let engine := (← get).engine
  match engine.recognition with
  | .done => return none
  | .aborted =>
    fail (.located (.prematureEndAfter engine.lexemeText) engine.lexemePosition)
  | _ =>
    if engine.lexeme.isEmpty then
      if (← onEngine Engine.nextChar).isNone then return none
    let engine := (← get).engine
    onEngine Engine.markFailed
    fail (.located (.unknownToken engine.lexemeText) engine.lexemePosition)

def scanToken (p : Pattern) : LexerM Bool := do
  return (← onEngine (Engine.scan p)) = some .token

/-- Gives the token queued last another type if it has the type `old`; the result is that
entry. -/
def retypeLast (old new : TokenType) : LexerM Reply := do
  modify fun l => { l with queue := l.queue.mapLast (Entry.retypeFrom old new) }
  return (← get).queue.last?

end Lexer
end TableLexer
