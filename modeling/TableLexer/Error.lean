import TableLexer.Engine.State
import TableLexer.Token

/-!
# Errors and entries

An error is a cause and, for the two kinds that arise from a place in the source, a position.
The kind of an error follows from its cause; only lexical errors may become part of the token
stream, all others end the run.

An entry is what the parser receives: a token with its type, the end of the stream, or a lexical
error met on the way.
-/
namespace TableLexer

inductive ErrorKind where
  | lexical
  | setup
  | rule
  | internal
  deriving DecidableEq, Repr

def ErrorKind.name : ErrorKind → String
  | lexical => "Lexical"
  | setup => "Setup"
  | rule => "Rule"
  | internal => "Internal"

/-- Why a regular expression is refused. -/
inductive RegexFault where
  | malformed
  | tooLarge
  deriving DecidableEq, Repr

inductive Cause where
  /-- An error raised by the user of the library, in their words. -/
  | custom (kind : ErrorKind) (text : String)
  -- malformed or exhausted input
  | noInput
  | scanPastEnd (state : RecognitionState)
  | unknownToken (lexeme : String)
  | prematureEnd
  | prematureEndAfter (lexeme : String)
  | stalledRule (rule : String)
  -- calls that are not allowed
  | inputDuringToken
  | noMainRule (rule : String)
  | unknownModeRule (mode rule : String)
  | notScanning (state : RecognitionState)
  | noRule (rule : String)
  | unknownMode (mode : String)
  | noModePushed
  | noModeArgument (message : String)
  | unknownMessage (message : String)
  -- defects of a rule table
  | badRegex (source : String) (fault : RegexFault)
  | noCategories
  | badCategory (category : String) (source : String) (fault : RegexFault)
  | blankTransform
  | secondTransform (type : TokenType)
  | emptyPatternSequence
  | emptySequence
  | blankRuleName
  | wideHandler (rule pattern : String)
  | typesAlreadySet
  | secondType (type : TokenType)
  | typesNotSet (rule : String)
  | secondRule (rule : String)
  | unregisteredType (rule : String) (type : TokenType)
  | danglingSubrule (rule subrule : String)
  | cycle (names : List String)
  -- broken invariants
  | inconsistentPosition (p : Position)
  | lineEventRefused (event : LineEvent) (state : LineState)
  | recognitionEventRefused (event : RecognitionEvent) (state : RecognitionState)
  | noSnapshot
  | blankEntry
  | emptyQueue
  | unknownSubrule (name : String)
  | lostInput
  deriving DecidableEq, Repr

namespace Cause

def kind : Cause → ErrorKind
  | custom k _ => k
  | noInput | scanPastEnd _ | unknownToken _ | prematureEnd | prematureEndAfter _
  | stalledRule _ => .lexical
  | inputDuringToken | noMainRule _ | unknownModeRule _ _ | notScanning _ | noRule _
  | unknownMode _ | noModePushed | noModeArgument _ | unknownMessage _ => .setup
  | badRegex _ _ | noCategories | badCategory _ _ _ | blankTransform | secondTransform _
  | emptyPatternSequence | emptySequence | blankRuleName | wideHandler _ _ | typesAlreadySet
  | secondType _ | typesNotSet _ | secondRule _ | unregisteredType _ _ | danglingSubrule _ _
  | cycle _ => .rule
  | inconsistentPosition _ | lineEventRefused _ _ | recognitionEventRefused _ _ | noSnapshot
  | blankEntry | emptyQueue | unknownSubrule _ | lostInput => .internal

def regexFault (source : String) : RegexFault → String
  | .malformed => "Invalid pattern /" ++ source ++ "/: regex parse error:"
  | .tooLarge =>
    "Invalid pattern /" ++ source ++ "/: Compiled regex exceeds size limit of 10485760 bytes."

def message : Cause → String
  | custom _ text => text
  | noInput => "No input text was provided"
  | scanPastEnd s => "Cannot scan past the end of scanning (state " ++ s.name ++ ")"
  | unknownToken lexeme => "Unknown token '" ++ lexeme ++ "'"
  | prematureEnd => "Premature end of stream"
  | prematureEndAfter lexeme => "Premature end of stream after '" ++ lexeme ++ "'"
  | stalledRule rule => "Rule '" ++ rule ++ "' consumed no input"
  | inputDuringToken => "Cannot replace the input while a token is being recognized"
  | noMainRule rule => "No main rule named '" ++ rule ++ "'"
  | unknownModeRule mode rule => "Mode '" ++ mode ++ "' refers to unknown rule '" ++ rule ++ "'"
  | notScanning s => "next_token may not be called in state " ++ s.name
  | noRule rule => "No rule named '" ++ rule ++ "'"
  | unknownMode mode => "Unknown lexer mode '" ++ mode ++ "'"
  | noModePushed => "pop_mode: no mode was pushed"
  | noModeArgument m => "Message '" ++ m ++ "' needs a mode name argument"
  | unknownMessage m => "No handler for message '" ++ m ++ "'"
  | badRegex source fault => regexFault source fault
  | noCategories => "A noise rule needs at least one category"
  | badCategory name source fault => "Noise category '" ++ name ++ "': " ++ regexFault source fault
  | blankTransform => "A transform rule needs a non-empty token type"
  | secondTransform type => "More than one transform rule for token type " ++ type.text
  | emptyPatternSequence => "A pattern sequence needs at least one (pattern, action) pair"
  | emptySequence => "An action sequence needs at least one action"
  | blankRuleName => "A rule needs a non-empty name"
  | wideHandler rule pattern =>
    "Rule '" ++ rule ++ "': pattern " ++ pattern ++ " must be a single character"
  | typesAlreadySet => "Token types are already registered"
  | secondType type => "Token type " ++ type.text ++ " is registered twice"
  | typesNotSet rule => "Cannot add rule '" ++ rule ++ "': the ruleset has no token types yet"
  | secondRule rule => "Rule named '" ++ rule ++ "' already exists"
  | unregisteredType rule type => "Rule '" ++ rule ++ "' uses unregistered token type " ++ type.text
  | danglingSubrule rule subrule =>
    "Rule '" ++ rule ++ "' refers to unknown subrule '" ++ subrule ++ "'"
  | cycle names => "Rules can recurse without consuming input: " ++ " -> ".intercalate names
  | inconsistentPosition p =>
    "Inconsistent lexeme position: offset " ++ toString p.offset ++ ", line " ++
      toString p.line ++ ", column " ++ toString p.column
  | lineEventRefused event state =>
    "Event " ++ event.name ++ " is not allowed in line state " ++ state.name
  | recognitionEventRefused event state =>
    "Event " ++ event.name ++ " is not allowed in recognition state " ++ state.name
  | noSnapshot => "Cannot restore a snapshot: the stack is empty"
  | blankEntry => "Malformed queue entry: empty token type"
  | emptyQueue => "Cannot dequeue from an empty token queue"
  | unknownSubrule name => "Unknown subrule '" ++ name ++ "'"
  | lostInput => "Lexer lost its input while applying a rule"

end Cause

structure LexError where
  cause : Cause
  position : Option Position
  deriving DecidableEq, Repr

namespace LexError

def kind (e : LexError) : ErrorKind := e.cause.kind

def message (e : LexError) : String := e.cause.message

def plain (cause : Cause) : LexError := ⟨cause, none⟩

def located (cause : Cause) (p : Position) : LexError := ⟨cause, some p⟩

/-- An error in the words of the user. Setup and rule errors have no position. -/
def ofText (kind : ErrorKind) (text : String) (position : Option Position) : LexError :=
  match kind with
  | .lexical | .internal => ⟨.custom kind text, position⟩
  | .setup | .rule => ⟨.custom kind text, none⟩

/-- Whether the driver may hand the error on as an entry of the token stream. -/
def isRecoverable (e : LexError) : Bool := e.kind = .lexical

def location (e : LexError) : String :=
  match e.position with
  | some p => " (line " ++ toString p.line ++ ", column " ++ toString p.column ++ ")"
  | none => ""

def text (e : LexError) : String :=
  match e.kind with
  | .lexical => "lexical error: " ++ e.message ++ e.location
  | .setup => "lexer setup error: " ++ e.message
  | .rule => "lexer rule error: " ++ e.message
  | .internal => "internal lexer error: " ++ e.message ++ e.location

end LexError

/-- A position given from outside; refused unless it is consistent. -/
def Position.make (offset line column : Nat) : Except LexError Position :=
  let p : Position := ⟨offset, line, column⟩
  if p.Consistent then .ok p else .error (.plain (.inconsistentPosition p))

inductive Entry where
  | token (type : TokenType) (token : Token)
  | endOfStream (token : Token)
  | error (error : LexError)
  deriving Repr

namespace Entry

def type? : Entry → Option TokenType
  | token t _ => some t
  | _ => none

def token? : Entry → Option Token
  | token _ t => some t
  | endOfStream t => some t
  | error _ => none

def error? : Entry → Option LexError
  | error e => some e
  | _ => none

def isEnd : Entry → Bool
  | endOfStream _ => true
  | _ => false

end Entry
end TableLexer
