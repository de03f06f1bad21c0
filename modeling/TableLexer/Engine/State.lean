/-!
# The two state machines of the engine

One machine follows the scan position through a line, the other follows the recognition of a
token. Both are plain tables: a state and an event give the next state and the action to run
on entry, or nothing if the event is refused.
-/
namespace TableLexer

inductive LineState where
  | atLineStart
  | afterIndentation
  | inLineBody
  | atLineEnd
  deriving DecidableEq, Repr

inductive LineEvent where
  | indentationScanned
  | eolChecked
  | expectedCharChecked
  | afterEol
  deriving DecidableEq, Repr

inductive LineEntry where
  | beginLine
  deriving DecidableEq, Repr

inductive RecognitionState where
  | waitingForInput
  | ready
  | tokenizing
  | recognized
  | done
  | failed
  | aborted
  deriving DecidableEq, Repr

inductive RecognitionEvent where
  | inputGiven
  | eosDetected
  | expectedCharChecked
  | unexpectedCharChecked
  | tokenRecognized
  | tokenEnqueued
  | recognitionReset
  deriving DecidableEq, Repr

inductive RecognitionEntry where
  | reset
  | clearLexeme
  deriving DecidableEq, Repr

namespace LineState

def on : LineState → LineEvent → Option (LineState × Option LineEntry)
  | atLineStart, .indentationScanned => some (afterIndentation, none)
  | _, .eolChecked => some (atLineEnd, none)
  | atLineStart, .expectedCharChecked => some (inLineBody, none)
  | afterIndentation, .expectedCharChecked => some (inLineBody, none)
  | inLineBody, .expectedCharChecked => some (inLineBody, none)
  | atLineEnd, .afterEol => some (atLineStart, some .beginLine)
  | _, _ => none

def name : LineState → String
  | atLineStart => "AtLineStart"
  | afterIndentation => "AfterIndentation"
  | inLineBody => "InLineBody"
  | atLineEnd => "AtLineEnd"

def all : List LineState := [atLineStart, afterIndentation, inLineBody, atLineEnd]

end LineState

namespace LineEvent

def name : LineEvent → String
  | indentationScanned => "IndentationScanned"
  | eolChecked => "EolChecked"
  | expectedCharChecked => "ExpectedCharChecked"
  | afterEol => "AfterEol"

def all : List LineEvent := [indentationScanned, eolChecked, expectedCharChecked, afterEol]

end LineEvent

def LineEntry.name : LineEntry → String
  | beginLine => "BeginLine"

namespace RecognitionState

def target : RecognitionState → RecognitionEvent → Option RecognitionState
  | ready, .eosDetected => some done
  | tokenizing, .eosDetected => some aborted
  | ready, .expectedCharChecked => some tokenizing
  | tokenizing, .expectedCharChecked => some tokenizing
  | tokenizing, .unexpectedCharChecked => some failed
  | recognized, .unexpectedCharChecked => some failed
  | ready, .tokenRecognized => some recognized
  | tokenizing, .tokenRecognized => some recognized
  | recognized, .tokenEnqueued => some ready
  | tokenizing, .recognitionReset => some ready
  | recognized, .recognitionReset => some ready
  | failed, .recognitionReset => some ready
  | _, _ => none

/-- Fresh input is accepted anywhere but inside a token. Entering `ready` clears the lexeme. -/
def on : RecognitionState → RecognitionEvent → Option (RecognitionState × Option RecognitionEntry)
  | tokenizing, .inputGiven => none
  | _, .inputGiven => some (ready, some .reset)
  | s, e => (s.target e).map fun t => (t, if t = ready then some .clearLexeme else none)

def isTerminal : RecognitionState → Bool
  | done | failed | aborted => true
  | _ => false

def name : RecognitionState → String
  | waitingForInput => "WaitingForInput"
  | ready => "Ready"
  | tokenizing => "Tokenizing"
  | recognized => "Recognized"
  | done => "Done"
  | failed => "Failed"
  | aborted => "Aborted"

def all : List RecognitionState :=
  [waitingForInput, ready, tokenizing, recognized, done, failed, aborted]

end RecognitionState

namespace RecognitionEvent

def name : RecognitionEvent → String
  | inputGiven => "InputGiven"
  | eosDetected => "EosDetected"
  | expectedCharChecked => "ExpectedCharChecked"
  | unexpectedCharChecked => "UnexpectedCharChecked"
  | tokenRecognized => "TokenRecognized"
  | tokenEnqueued => "TokenEnqueued"
  | recognitionReset => "RecognitionReset"

def all : List RecognitionEvent :=
  [inputGiven, eosDetected, expectedCharChecked, unexpectedCharChecked, tokenRecognized,
    tokenEnqueued, recognitionReset]

end RecognitionEvent

def RecognitionEntry.name : RecognitionEntry → String
  | reset => "Reset"
  | clearLexeme => "ClearLexeme"

end TableLexer
