import TableLexer.Engine.Scan

/-!
# The engine in bytes

The marks of this engine count the UTF-8 bytes before them, and texts are taken out of the input
between two byte counts. Where these are out of order, out of range or inside a character there is
no such text, and an operation that asks for it panics. So does one that makes a position which is
not consistent. Positions themselves count characters.
-/
namespace TableLexer.ByteEngine

inductive Fault where
  | panic
  | refused (e : LexError)
  deriving DecidableEq, Repr

abbrev ByteEngineM := EStateM Fault Engine

def sliceInput (start stop : Nat) : ByteEngineM (List Char) := do
  match Text.sliceBytes? (← get).input start stop with
  | some text => return text
  | none => throw .panic

/-- A count of characters is zero where there is no text to count; only the assertion panics. -/
def locate (m : Mark) : ByteEngineM Position := do
  let input := (← get).input
  let count := fun start stop => ((Text.sliceBytes? input start stop).getD []).length
  let position : Position := ⟨count 0 m.pos, m.line, count (min m.lineStart m.pos) m.pos⟩
  if position.Consistent then return position else throw .panic

def currentPosition : ByteEngineM Position := do
  locate (← get).toMark

def lexemePosition : ByteEngineM Position := do
  let e ← get
  if e.lexeme.isEmpty then currentPosition else locate e.anchor

def refuseHere (cause : Cause) : ByteEngineM Unit := do
  throw (.refused (.located cause (← currentPosition)))

def separator? (e : Engine) : Option Nat := e.config.eol.consumedBytesAt? e.input e.pos

def countBreaks (start : Nat) (text : List Char) (e : Engine) : Engine :=
  (e.config.eol.matchEndBytes text).foldl
    (fun e last => { e with line := e.line + 1, lineStart := start + last }) e

def takeBytes (n : Nat) : ByteEngineM (List Char) := do
  let e ← get
  set (e.advance n)
  let text ← sliceInput e.pos (e.pos + n)
  modify (·.pushLexeme e.toMark text)
  return text

def beginLine (e : Engine) : Engine :=
  let pos := e.pos + (separator? e).getD 0
  { e with pos, line := e.line + 1, lineStart := pos, lexeme := [] }

def enterLine (e : Engine) : Option LineEntry → Engine
  | some .beginLine => beginLine e
  | none => e

def fireLine (event : LineEvent) : ByteEngineM Unit := do
  let e ← get
  match e.lineState.on event with
  | some (next, entry) => set (enterLine { e with lineState := next } entry)
  | none => refuseHere (.lineEventRefused event e.lineState)

def fireRecognition (event : RecognitionEvent) : ByteEngineM Unit := do
  let e ← get
  match e.recognition.on event with
  | some (next, entry) => set ({ e with recognition := next }.enterRecognition entry)
  | none => refuseHere (.recognitionEventRefused event e.recognition)

def markRecognized : ByteEngineM Unit := do
  match (← get).recognition with
  | .ready | .tokenizing => fireRecognition .tokenRecognized
  | _ => pure ()

def markFailed : ByteEngineM Unit := do
  match (← get).recognition with
  | .tokenizing | .recognized => fireRecognition .unexpectedCharChecked
  | _ => pure ()

def resetRecognition : ByteEngineM Unit := do
  match (← get).recognition with
  | .tokenizing | .recognized | .failed => fireRecognition .recognitionReset
  | _ => pure ()

def setInput (input : List Char) : ByteEngineM Unit := do
  if (← get).recognition = .tokenizing then throw (.refused (.plain .inputDuringToken))
  modify fun e => { e with input }
  fireRecognition .inputGiven

def ensureScannable : ByteEngineM Unit := do
  let e ← get
  if e.recognition = .waitingForInput then throw (.refused (.plain .noInput))
  if e.recognition.isTerminal then refuseHere (.scanPastEnd e.recognition)

def releaseToken : ByteEngineM Unit := do
  if (← get).recognition = .recognized then fireRecognition .tokenEnqueued

def leaveLine : ByteEngineM Unit := do
  let e ← get
  if e.lineState = .atLineEnd ∧ e.recognition = .ready then fireLine .afterEol

def indentation? (e : Engine) : Option Nat :=
  if e.lineState = .atLineStart then
    e.config.indentation.bind fun p => p.consumedBytesAt? e.input e.pos
  else none

def takeIndentation : ByteEngineM Bool := do
  match indentation? (← get) with
  | none => return false
  | some n =>
    let _ ← takeBytes n
    fireLine .indentationScanned
    fireRecognition .tokenRecognized
    return true

def skipNoise : ByteEngineM Unit := do
  let e ← get
  match e.config.noise.consumedBytesAt? e.input e.pos with
  | none => pure ()
  | some n =>
    set (e.advance n)
    let skipped ← sliceInput e.pos (e.pos + n)
    if Text.hasLineBreak skipped then modify (countBreaks e.pos skipped)

def showSeparator (n : Nat) : ByteEngineM Unit := do
  let e ← get
  let separator ← sliceInput e.pos (e.pos + n)
  set (e.clearLexeme.pushLexeme e.toMark separator)

def reportEnd : ByteEngineM (Option Outcome) := do
  let e ← get
  if Text.byteLength e.input ≤ e.pos then
    fireRecognition .eosDetected
    return some .endOfStream
  match separator? e with
  | none => return none
  | some n =>
    fireLine .eolChecked
    if (← get).recognition = .ready then showSeparator n
    return some .lineEnd

def scanLayout : ByteEngineM (Option Outcome) := do
  ensureScannable
  releaseToken
  leaveLine
  if ← takeIndentation then
    return some .indentation
  else
    skipNoise
    reportEnd

def takeMatch (p : Pattern) (n : Nat) : ByteEngineM Unit := do
  let e ← get
  let matched ← takeBytes n
  if p.spansLines || Text.hasLineBreak matched then modify (countBreaks e.pos matched)

def tryPattern (p : Pattern) : ByteEngineM (Option Outcome) := do
  let e ← get
  match p.matchBytesAt? e.input e.pos with
  | none => return none
  | some n =>
    takeMatch p n
    fireLine .expectedCharChecked
    fireRecognition .expectedCharChecked
    fireRecognition .tokenRecognized
    return some .token

def scan (p : Pattern) : ByteEngineM (Option Outcome) := do
  match ← scanLayout with
  | some outcome => return some outcome
  | none => tryPattern p

def takeSeparator (n : Nat) : ByteEngineM Unit := do
  let e ← get
  let separator ← sliceInput e.pos (e.pos + n)
  let pending := e.lineState = .atLineEnd
  let kept := if pending ∧ e.recognition = .ready then [] else e.lexeme
  set e.clearLexeme
  if ¬ pending then fireLine .eolChecked
  fireLine .afterEol
  modify fun line => { line with lexeme := kept }.pushLexeme e.toMark separator

def takeChar (c : Char) (e : Engine) : Engine :=
  (e.advance c.utf8Size).pushLexeme e.toMark [c]

def nextChar : ByteEngineM (Option Char) := do
  ensureScannable
  releaseToken
  let e ← get
  match Text.charAtByte? e.input e.pos with
  | none =>
    fireRecognition .eosDetected
    return none
  | some c =>
    match separator? e with
    | some n => takeSeparator n
    | none => set (takeChar c e)
    fireLine .expectedCharChecked
    fireRecognition .expectedCharChecked
    return some c

def undoScan : ByteEngineM Unit := do
  let e ← get
  if e.lexeme.isEmpty then return ()
  set { e with toMark := e.anchor, lexeme := [] }
  resetRecognition

def takeToken : ByteEngineM Token := do
  let e ← get
  let position ← lexemePosition
  set e.clearLexeme
  return .ofLexeme e.lexemeText position

def restoreSnapshot : ByteEngineM Unit := do
  let e ← get
  match e.snapshots with
  | [] => refuseHere .noSnapshot
  | saved :: older => set { e with toScan := saved, snapshots := older }

end TableLexer.ByteEngine
