import TableLexer.Noise

/-!
# The engine and its operations on the lexeme

The engine owns the text, the lexeme being built, the two state machines and a stack of
snapshots. Operations that can fail are programs over the engine: a failure keeps the engine
as it was at the moment of failing.
-/
namespace TableLexer

structure Mark where
  pos : Nat
  line : Nat
  lineStart : Nat
  lineState : LineState
  deriving DecidableEq, Repr

namespace Mark

def origin : Mark := ⟨0, 1, 0, .atLineStart⟩

def position (m : Mark) : Position := ⟨m.pos, m.line, m.pos - m.lineStart⟩

end Mark

/-- How far scanning has come: everything a snapshot saves. The anchor is the mark at which
the lexeme started. -/
structure Scan extends Mark where
  lexeme : List Char
  anchor : Mark
  recognition : RecognitionState
  deriving DecidableEq, Repr

def Scan.initial (recognition : RecognitionState) : Scan := ⟨.origin, [], .origin, recognition⟩

/-- `snapshots` has the newest first. -/
structure Engine extends Scan where
  config : EngineConfig
  input : List Char
  snapshots : List Scan
  deriving Repr

inductive Outcome where
  | indentation
  | endOfStream
  | lineEnd
  | token
  deriving DecidableEq, Repr

def Outcome.name : Outcome → String
  | indentation => "Indentation"
  | endOfStream => "Eos"
  | lineEnd => "Eol"
  | token => "Token"

abbrev EngineM := EStateM LexError Engine

namespace Engine

def new (config : EngineConfig) : Engine :=
  { toScan := .initial .waitingForInput, config, input := [], snapshots := [] }

def atEnd (e : Engine) : Bool := decide (e.input.length ≤ e.pos)

def remaining (e : Engine) : List Char := e.input.drop e.pos

def lexemeText (e : Engine) : String := String.ofList e.lexeme

def currentPosition (e : Engine) : Position := e.toMark.position

def lexemePosition (e : Engine) : Position :=
  if e.lexeme.isEmpty then e.currentPosition else e.anchor.position

/-- The length of the line separator at the scan position, if there is one. -/
def separator? (e : Engine) : Option Nat := e.config.eol.consumedAt? e.input e.pos

def upcoming (e : Engine) (n : Nat) : List Char := Text.slice e.input e.pos (e.pos + n)

def clearLexeme (e : Engine) : Engine := { e with lexeme := [] }

/-- Appends to the lexeme; the first part of a lexeme sets the anchor. -/
def pushLexeme (anchor : Mark) (text : List Char) (e : Engine) : Engine :=
  { e with
    anchor := if e.lexeme.isEmpty then anchor else e.anchor
    lexeme := e.lexeme ++ text }

/-- Counts the separators in a text that was consumed from the place `start`. -/
def countBreaks (start : Nat) (text : List Char) (e : Engine) : Engine :=
  let ends := e.config.eol.matchEnds text
  { e with
    line := e.line + ends.length
    lineStart := match ends.getLast? with
      | some last => start + last
      | none => e.lineStart }

def advance (n : Nat) (e : Engine) : Engine := { e with pos := e.pos + n }

def takeChars (n : Nat) (e : Engine) : Engine :=
  (e.advance n).pushLexeme e.toMark (e.upcoming n)

def takeToken (e : Engine) : Token × Engine :=
  (.ofLexeme e.lexemeText e.lexemePosition, e.clearLexeme)

def beginLine (e : Engine) : Engine :=
  let pos := e.pos + e.separator?.getD 0
  { e with pos, line := e.line + 1, lineStart := pos, lexeme := [] }

def reset (e : Engine) : Engine :=
  { e with toScan := .initial e.recognition, snapshots := [] }

def enterLine (e : Engine) : Option LineEntry → Engine
  | some .beginLine => e.beginLine
  | none => e

def enterRecognition (e : Engine) : Option RecognitionEntry → Engine
  | some .reset => e.reset
  | some .clearLexeme => e.clearLexeme
  | none => e

def fireLine (event : LineEvent) : EngineM Unit := fun e =>
  match e.lineState.on event with
  | some (next, entry) => .ok () ({ e with lineState := next }.enterLine entry)
  | none => .error (.located (.lineEventRefused event e.lineState) e.currentPosition) e

def fireRecognition (event : RecognitionEvent) : EngineM Unit := fun e =>
  match e.recognition.on event with
  | some (next, entry) => .ok () ({ e with recognition := next }.enterRecognition entry)
  | none =>
    .error (.located (.recognitionEventRefused event e.recognition) e.currentPosition) e

def markRecognized : EngineM Unit := do
  match (← get).recognition with
  | .ready | .tokenizing => fireRecognition .tokenRecognized
  | _ => pure ()

def markFailed : EngineM Unit := do
  match (← get).recognition with
  | .tokenizing | .recognized => fireRecognition .unexpectedCharChecked
  | _ => pure ()

def resetRecognition : EngineM Unit := do
  match (← get).recognition with
  | .tokenizing | .recognized | .failed => fireRecognition .recognitionReset
  | _ => pure ()

end Engine
end TableLexer
