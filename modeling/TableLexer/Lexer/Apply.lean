import TableLexer.Lexer.Basic

/-!
# Applying rules

Actions and rules run structurally, except where they call for another rule or for an
operation that performs an action. Such calls go through `call`, and `respond` ties the knot
with an allowance of nested calls.
-/
namespace TableLexer

inductive Call where
  | subrule (name : String)
  | perform (action : Action)

namespace Lexer

def modeArgument (message : String) (args : List Value) : LexerM String :=
  match args.head?.bind Value.asText? with
  | some mode => return mode
  | none => fail (.plain (.noModeArgument message))

/-- The messages every lexer understands. -/
def builtIn (message : String) (args : List Value) : LexerM Reply :=
  match message with
  | "unknown_token" => unknownToken
  | "next_char" => do let _ ← onEngine Engine.nextChar; return none
  | "clear" => do modifyEngine Engine.clearLexeme; return none
  | "undo_scan" => do onEngine Engine.undoScan; return none
  | "add_snapshot" => do modifyEngine Engine.addSnapshot; return none
  | "restore_snapshot" => do onEngine Engine.restoreSnapshot; return none
  | "pop_snapshot" => do modifyEngine fun e => e.popSnapshot.2; return none
  | "set_mode" => do setMode (← modeArgument message args); return none
  | "push_mode" => do pushMode (← modeArgument message args); return none
  | "pop_mode" => do popMode; return none
  | _ => fail (.plain (.unknownMessage message))

def operate (call : Call → LexerM Reply) (args : List Value) : Operation → LexerM Reply
  | .keyword hit miss => do
    let lexeme := (← get).engine.lexemeText
    enqueueToken (if args.any (·.asText? == some lexeme) then hit else miss)
  | .perform action => call (.perform action)
  | .fail kind text => do
    fail (.ofText kind text (some (← get).engine.lexemePosition))
  | .pushAhead type => do
    let engine := (← get).engine
    let value := args.head?.getD .null
    onQueue (QueueM.pushAhead (.token type ⟨value, engine.lexemeText, engine.lexemePosition⟩))
  | .setInput text => do setInput text; return none

/-- Runs the operation of a message; registered ones hide the built-in ones. -/
def sendMessage (call : Call → LexerM Reply) (message : String) (args : List Value) :
    LexerM Reply := do
  match (← get).operation? message with
  | some op => operate call args op
  | none => builtIn message args

end Lexer

namespace Action

open Lexer

mutual

def run (call : Call → LexerM Reply) : Action → LexerM Reply
  | enqueue type => enqueueToken type
  | send message args => sendMessage call message args
  | subrule name => call (.subrule name)
  | changeState message state next => do
    let _ ← sendMessage call message [.text state]
    next.run call
  | onLexeme p hit miss => do
    if p.matchesLexeme (← get).engine.lexeme then hit.run call else runOption call miss
  | onScan p hit miss => do
    if ← scanToken p then hit.run call else runOption call miss
  | patterns pairs => runPairs call none pairs
  | sequence actions => runList call none actions
  | putBack => do onEngine Engine.undoScan; return none
  | clear => do modifyEngine Engine.clearLexeme; return none
  | retype old new => retypeLast old new

def runOption (call : Call → LexerM Reply) : Option Action → LexerM Reply
  | none => return none
  | some a => a.run call

/-- A pattern that does not scan ends the sequence as an unknown token. -/
def runPairs (call : Call → LexerM Reply) (last : Reply) :
    List (Pattern × Action) → LexerM Reply
  | [] => return last
  | (p, a) :: rest => do
    if ← scanToken p then
      let reply ← a.run call
      runPairs call reply rest
    else Lexer.unknownToken

def runList (call : Call → LexerM Reply) (last : Reply) : List Action → LexerM Reply
  | [] => return last
  | a :: rest => do
    let reply ← a.run call
    runList call reply rest

end

end Action

namespace Rule

open Lexer

def firstScanned : List Handler → LexerM (Option Handler)
  | [] => return none
  | h :: rest => do if ← scanToken h.pattern then return some h else firstScanned rest

/-- The handler that applies. -/
def dispatch (r : Rule) : LexerM (Option Handler) := do
  match r.kind with
  | .standard => return (← onEngine Engine.nextChar).bind r.handlerFor?
  | .lookahead => firstScanned r.handlers

def run (call : Call → LexerM Reply) (r : Rule) : LexerM Reply := do
  let _ ← Action.runOption call r.before
  match ← r.dispatch with
  | some h => h.action.run call
  | none => r.otherwise.run call

end Rule

namespace Lexer

/-- Answers calls with at most `allowance` of them nested in each other. -/
def respond : (allowance : Nat) → Call → LexerM Reply
  | 0, _ => throw .exhausted
  | n + 1, .subrule name => do
    match (← get).ruleset.rule? name with
    | some r => r.run (respond n)
    | none => fail (.plain (.unknownSubrule name))
  | n + 1, .perform action => action.run (respond n)

end Lexer
end TableLexer
