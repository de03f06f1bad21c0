import TableLexer.Lexer.Apply

/-!
# Delivering entries

When the queue is empty the lexer fills it: it lets the engine deal with layout, and in the
body of a line it applies the rule of the current mode. A lexical error raised by a rule
becomes an entry. A rule that consumed nothing is reported and costs one character, so every
application of a rule gets closer to the end of the text, where the end marker is queued.
-/
namespace TableLexer.Lexer

def capture (e : LexError) : LexerM Unit := do
  modifyStats fun s => { s with errorsCaptured := s.errorsCaptured + 1 }
  let _ ← onQueue (QueueM.enqueue (.error e))

/-- Runs a program and captures the lexical error it may raise; tells whether there was one. -/
def capturing {α : Type} (m : LexerM α) : LexerM Bool := fun l =>
  match m l with
  | .ok _ l => .ok false l
  | .error (.fault e) l =>
    if e.isRecoverable then (do capture e; return true : LexerM Bool) l
    else .error (.fault e) l
  | .error .exhausted l => .error .exhausted l

def enqueueEnd : LexerM Unit := do
  let position := (← get).engine.currentPosition
  let _ ← onQueue (QueueM.enqueue (.endOfStream (.endOfStream position)))

/-- Drops one character so as to get on. -/
def skipChar : LexerM Unit := do
  let _ ← onEngine Engine.nextChar
  onEngine Engine.resetRecognition

/-- Whether a rule applied at `start` neither consumed input nor ran into the end of a line. -/
def stalled (start now : Mark) : Bool :=
  now.pos == start.pos && !(start.lineState != .atLineEnd && now.lineState == .atLineEnd)

/-- Brings the engine back to where the next rule can be applied. -/
def settle (rule : String) (start : Mark) (captured : Bool) : LexerM Unit := do
  let engine := (← get).engine
  match engine.recognition with
  | .tokenizing | .failed => onEngine Engine.resetRecognition
  | .done => enqueueEnd
  | .aborted =>
    if !captured then capture (.located .prematureEnd engine.lexemePosition)
    enqueueEnd
  | .ready | .recognized =>
    if stalled start engine.toMark then
      if !captured then capture (.located (.stalledRule rule) engine.currentPosition)
      skipChar
  | .waitingForInput => fail (.plain .lostInput)

def applyModeRule (allowance : Nat) : LexerM Unit := do
  let name ← modeRule
  let l ← get
  match l.ruleset.rule? name with
  | none => fail (.plain (.noRule name))
  | some r =>
    let start := l.engine.toMark
    modifyStats fun s => { s with rulesApplied := s.rulesApplied + 1 }
    let captured ← capturing (r.run (respond allowance))
    settle name start captured

def enqueueIndent : LexerM Unit := do
  if (← enqueueToken (← get).options.indentType).isSome then
    modifyStats fun s => { s with indentTokens := s.indentTokens + 1 }

def enqueueLineEnd : LexerM Unit := do
  let l ← get
  if l.options.eolTokens then
    let token := Token.ofLexeme l.engine.lexemeText l.engine.lexemePosition
    let queued ← onQueue (QueueM.pushAhead (.token l.options.eolType token))
    modifyStats (·.recordQueued queued.isSome)
    if queued.isSome then modifyStats fun s => { s with eolTokens := s.eolTokens + 1 }

def fillStep (allowance : Nat) : LexerM Unit := do
  match ← onEngine Engine.scanLayout with
  | some .indentation => enqueueIndent
  | some .lineEnd => enqueueLineEnd
  | some .endOfStream => enqueueEnd
  | some .token | none => applyModeRule allowance

def fillQueue (allowance : Nat) : (rounds : Nat) → LexerM Unit
  | 0 => throw .exhausted
  | rounds + 1 => do
    if (← get).queue.isEmpty then
      fillStep allowance
      fillQueue allowance rounds

def nextToken (allowance : Nat) : LexerM Entry := do
  let l ← get
  let state := l.engine.recognition
  if state = .waitingForInput then fail (.plain .noInput)
  if l.queue.isEmpty then
    if state = .ready ∨ state = .recognized then fillQueue allowance allowance
    else fail (.plain (.notScanning state))
  onQueue QueueM.dequeue

/-- The next entry of a stream that ends after the end marker, or after the first failure. -/
def next? (allowance : Nat) : LexerM (Option Entry) := fun l =>
  if l.finished then .ok none l
  else
    match nextToken allowance l with
    | .ok entry l => .ok (some entry) (if entry.isEnd then { l with finished := true } else l)
    | .error stop l => .error stop { l with finished := true }

def drain (allowance : Nat) : (rounds : Nat) → LexerM (List Entry)
  | 0 => throw .exhausted
  | rounds + 1 => do
    match ← next? allowance with
    | none => return []
    | some entry => return entry :: (← drain allowance rounds)

/-- What programs are run with. Texts with more entries, and deeper calls, take a larger one. -/
def allowance : Nat := 1000000

end TableLexer.Lexer

namespace TableLexer

structure Tokenized where
  text : String
  entries : List Entry
  stats : Stats

namespace Tokenized

def errors (t : Tokenized) : List LexError := t.entries.filterMap Entry.error?

end Tokenized

def Lexer.tokenize (l : Lexer) (text : String) (allowance : Nat := Lexer.allowance) :
    Except Stop Tokenized :=
  let program : LexerM (List Entry) := do
    Lexer.setInput text
    Lexer.drain allowance allowance
  match program l with
  | .ok entries l => .ok ⟨text, entries, l.stats⟩
  | .error stop _ => .error stop

def tokenize (ruleset : Ruleset) (text : String) (options : Options := {})
    (allowance : Nat := Lexer.allowance) : Except Stop Tokenized :=
  match Lexer.new ruleset options with
  | .ok l => l.tokenize text allowance
  | .error e => .error (.fault e)

end TableLexer
