import TableLexer.Engine.Basic

/-!
# Scanning

Before a pattern is tried the engine deals with the layout: it lets go of the token recognized
last, consumes a pending line separator, reports indentation, skips noise, and reports the end
of the text or of the line. What it reports keeps the pattern from being tried.
-/
namespace TableLexer.Engine

def setInput (input : List Char) : EngineM Unit := do
  if (← get).recognition = .tokenizing then throw (.plain .inputDuringToken)
  modify fun e => { e with input }
  fireRecognition .inputGiven

def ensureScannable : EngineM Unit := do
  let e ← get
  if e.recognition = .waitingForInput then throw (.plain .noInput)
  if e.recognition.isTerminal then
    throw (.located (.scanPastEnd e.recognition) e.currentPosition)

def releaseToken : EngineM Unit := do
  if (← get).recognition = .recognized then fireRecognition .tokenEnqueued

/-- Consumes a pending line separator, unless a token reaches across it. -/
def leaveLine : EngineM Unit := do
  let e ← get
  if e.lineState = .atLineEnd ∧ e.recognition = .ready then fireLine .afterEol

def indentation? (e : Engine) : Option Nat :=
  if e.lineState = .atLineStart then
    e.config.indentation.bind fun p => p.consumedAt? e.input e.pos
  else none

def takeIndentation : EngineM Bool := do
  match (← get).indentation? with
  | none => return false
  | some n =>
    modify (takeChars n)
    fireLine .indentationScanned
    fireRecognition .tokenRecognized
    return true

def skipNoise (e : Engine) : Engine :=
  match e.config.noise.consumedAt? e.input e.pos with
  | none => e
  | some n =>
    let skipped := e.upcoming n
    let moved := e.advance n
    if Text.hasLineBreak skipped then moved.countBreaks e.pos skipped else moved

def showSeparator (n : Nat) (e : Engine) : Engine :=
  e.clearLexeme.pushLexeme e.toMark (e.upcoming n)

/-- Reports the end of the text or of the line, if the scan position is there. A separator
inside a token is left for later. -/
def reportEnd : EngineM (Option Outcome) := do
  let e ← get
  if e.atEnd then
    fireRecognition .eosDetected
    return some .endOfStream
  match e.separator? with
  | none => return none
  | some n =>
    fireLine .eolChecked
    if (← get).recognition = .ready then modify (showSeparator n)
    return some .lineEnd

/-- Everything before a pattern is tried; nothing is reported in the body of a line. -/
def scanLayout : EngineM (Option Outcome) := do
  ensureScannable
  releaseToken
  leaveLine
  if ← takeIndentation then
    return some .indentation
  else
    modify skipNoise
    reportEnd

def takeMatch (p : Pattern) (n : Nat) (e : Engine) : Engine :=
  let matched := e.upcoming n
  let taken := e.takeChars n
  if p.spansLines || Text.hasLineBreak matched then taken.countBreaks e.pos matched else taken

/-- Tries the pattern at the scan position, without any regard to layout. -/
def tryPattern (p : Pattern) : EngineM (Option Outcome) := do
  let e ← get
  match p.matchAt? e.input e.pos with
  | none => return none
  | some n =>
    set (e.takeMatch p n)
    fireLine .expectedCharChecked
    fireRecognition .expectedCharChecked
    fireRecognition .tokenRecognized
    return some .token

def scan (p : Pattern) : EngineM (Option Outcome) := do
  match ← scanLayout with
  | some outcome => return some outcome
  | none => tryPattern p

/-- Takes a line separator into the lexeme and begins the next line. A pending separator that
is all of the lexeme is not taken twice. -/
def takeSeparator (n : Nat) : EngineM Unit := do
  let e ← get
  let pending := e.lineState = .atLineEnd
  let kept := if pending ∧ e.recognition = .ready then [] else e.lexeme
  set e.clearLexeme
  if ¬ pending then fireLine .eolChecked
  fireLine .afterEol
  modify fun line => { line with lexeme := kept }.pushLexeme e.toMark (e.upcoming n)

/-- Takes one character into the lexeme, a line separator as a whole; its first character is
the result. At the end of the text there is none. -/
def nextChar : EngineM (Option Char) := do
  ensureScannable
  releaseToken
  let e ← get
  match e.input[e.pos]? with
  | none =>
    fireRecognition .eosDetected
    return none
  | some c =>
    match e.separator? with
    | some n => takeSeparator n
    | none => set (e.takeChars 1)
    fireLine .expectedCharChecked
    fireRecognition .expectedCharChecked
    return some c

/-- Puts the lexeme back: scanning resumes where the lexeme started. -/
def undoScan : EngineM Unit := do
  let e ← get
  if e.lexeme.isEmpty then return ()
  set { e with toMark := e.anchor, lexeme := [] }
  resetRecognition

def addSnapshot (e : Engine) : Engine := { e with snapshots := e.toScan :: e.snapshots }

def restoreSnapshot : EngineM Unit := fun e =>
  match e.snapshots with
  | [] => .error (.located .noSnapshot e.currentPosition) e
  | saved :: older => .ok () { e with toScan := saved, snapshots := older }

def popSnapshot (e : Engine) : Option Scan × Engine :=
  (e.snapshots.head?, { e with snapshots := e.snapshots.tail })

end TableLexer.Engine
